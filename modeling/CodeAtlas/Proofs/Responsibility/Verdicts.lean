import CodeAtlas.Program
import CodeAtlas.Proofs.Responsibility.Evidence
import CodeAtlas.Responsibility.Classification
import Mathlib.Data.List.Nodup

/-! What is said of a file as a whole. Whether it does too much, what is wrong with it and what to
do about it are three readings of the categories that are present, and no category is present
without evidence, whatever the thresholds are. -/

namespace CodeAtlas

theorem Evidence.category_ne_testing (e : Evidence) : e.category ≠ .testing := by
  cases e <;> exact Category.noConfusion

namespace Responsibility

variable {h : Heuristics} {s : Settings} {file : String} {threshold : Float}
  {indicators : List Indicator} {present : List Category} {c : Category} {m : Mixture} {i : Issue}

section Present

theorem isPresent_of_none (hnone : ∀ i ∈ indicators, i.category ≠ c) :
    isPresent threshold indicators c = false := by
  have hfilter : indicators.filter (·.category == c) = [] := by
    apply List.filter_eq_nil_iff.mpr
    intro i hi
    rw [beq_iff_eq]
    exact hnone i hi
  rw [isPresent, hfilter]

/-- Whether a category is present is told by the evidence for it alone. -/
theorem isPresent_congr {others : List Indicator}
    (hsame : indicators.filter (·.category == c) = others.filter (·.category == c)) :
    isPresent threshold indicators c = isPresent threshold others c := by
  rw [isPresent, isPresent, hsame]

theorem presentCategories_sublist : (presentCategories h s indicators).Sublist Category.all :=
  List.filter_sublist

theorem exists_of_mem_presentCategories (hc : c ∈ presentCategories h s indicators) :
    ∃ i ∈ indicators, i.category = c := by
  have hpresent := (List.mem_filter.mp hc).2
  by_contra hnone
  rw [isPresent_of_none fun i hi heq => hnone ⟨i, hi, heq⟩] at hpresent
  exact Bool.noConfusion hpresent

theorem not_mem_presentCategories_testing : .testing ∉ presentCategories h s indicators := by
  intro hmem
  obtain ⟨i, -, hi⟩ := exists_of_mem_presentCategories hmem
  exact i.evidence.category_ne_testing hi

end Present

section Problems

theorem mem_mixtures :
    m ∈ mixtures present ↔ .uiRendering ∈ present ∧ m.intruder ∈ present := by
  cases m with
  | dataInUi => simp [mixtures, Mixture.intruder]
  | logicInUi => simp [mixtures, Mixture.intruder, and_comm]

theorem nodup_mixtures : (mixtures present).Nodup := by
  unfold mixtures
  split <;> split <;> decide

theorem areTooMany_iff : areTooMany s present = true ↔
    (.uiRendering ∈ present ∧ .dataAccess ∈ present) ∨
      s.maxResponsibilities < present.length := by
  simp [areTooMany]

theorem present_ne_nil_of_areTooMany (h : areTooMany s present = true) : present ≠ [] := by
  rcases areTooMany_iff.mp h with ⟨hmem, -⟩ | hlt
  · exact List.ne_nil_of_mem hmem
  · exact List.ne_nil_of_length_pos (Nat.zero_lt_of_lt hlt)

theorem mem_problems : i ∈ problems s file present indicators ↔
    (∃ m ∈ mixtures present, i = ⟨.mixedConcerns m, firstOf file indicators m.intruder⟩) ∨
      s.maxResponsibilities < present.length ∧
        i = ⟨.multipleResponsibilities present s.maxResponsibilities, ⟨file, none⟩⟩ := by
  unfold problems
  rw [List.mem_append, List.mem_map]
  apply or_congr
  · simp only [eq_comm]
  · split
    next hlt => simp [hlt]
    next hle => simp [hle]

theorem exists_mixedConcerns_iff : (∃ i ∈ problems s file present indicators,
      i.problem = .mixedConcerns m) ↔ m ∈ mixtures present := by
  constructor
  · rintro ⟨i, hi, hproblem⟩
    rcases mem_problems.mp hi with ⟨m', hm', rfl⟩ | ⟨-, rfl⟩
    · exact Problem.mixedConcerns.inj hproblem ▸ hm'
    · exact Problem.noConfusion hproblem
  · intro hm
    exact ⟨_, mem_problems.mpr (.inl ⟨m, hm, rfl⟩), rfl⟩

theorem exists_multipleResponsibilities_iff {listed : List Category} {allowed : Nat} :
    (∃ i ∈ problems s file present indicators,
      i.problem = .multipleResponsibilities listed allowed) ↔
    s.maxResponsibilities < present.length ∧ listed = present ∧
      allowed = s.maxResponsibilities := by
  constructor
  · rintro ⟨i, hi, hproblem⟩
    rcases mem_problems.mp hi with ⟨m, -, rfl⟩ | ⟨hlt, rfl⟩
    · exact Problem.noConfusion hproblem
    · obtain ⟨hlisted, hallowed⟩ := Problem.multipleResponsibilities.inj hproblem
      exact ⟨hlt, hlisted.symm, hallowed.symm⟩
  · rintro ⟨hlt, rfl, rfl⟩
    exact ⟨_, mem_problems.mpr (.inr ⟨hlt, rfl⟩), rfl⟩

theorem nodup_problems : ((problems s file present indicators).map Issue.problem).Nodup := by
  have hmixed : ((mixtures present).map Problem.mixedConcerns).Nodup :=
    nodup_mixtures.map fun _ _ h => Problem.mixedConcerns.inj h
  unfold problems
  rw [List.map_append, List.map_map]
  split
  · refine List.nodup_append.mpr ⟨hmixed, List.nodup_singleton _, ?_⟩
    intro p hp q hq
    obtain ⟨m, -, rfl⟩ := List.mem_map.mp hp
    rw [List.mem_singleton.mp hq]
    exact Problem.noConfusion
  · rwa [List.map_nil, List.append_nil]

theorem problems_ne_nil_of_areTooMany (h : areTooMany s present = true) :
    problems s file present indicators ≠ [] := by
  rcases areTooMany_iff.mp h with ⟨hrendering, hdata⟩ | hlt
  · have hmixture : Mixture.dataInUi ∈ mixtures present := mem_mixtures.mpr ⟨hrendering, hdata⟩
    exact List.ne_nil_of_mem (mem_problems.mpr (.inl ⟨_, hmixture, rfl⟩))
  · exact List.ne_nil_of_mem (mem_problems.mpr (.inr ⟨hlt, rfl⟩))

/-- A category that has evidence is placed at the first piece of it. -/
theorem exists_first (file : String) (hshown : ∃ i ∈ indicators, i.category = c) :
    ∃ before first after, indicators = before ++ first :: after ∧ first.category = c ∧
      (∀ i ∈ before, i.category ≠ c) ∧
      firstOf file indicators c = ⟨file, some (first.line, first.column)⟩ := by
  obtain ⟨i, hi, hcategory⟩ := hshown
  have hsome : (indicators.find? (·.category == c)).isSome = true :=
    List.find?_isSome.mpr ⟨i, hi, beq_iff_eq.mpr hcategory⟩
  obtain ⟨first, hfirst⟩ := Option.isSome_iff_exists.mp hsome
  obtain ⟨hc, before, after, hsplit, hbefore⟩ := List.find?_eq_some_iff_append.mp hfirst
  refine ⟨before, first, after, hsplit, beq_iff_eq.mp hc, fun i hi => ?_, ?_⟩
  · simpa using hbefore i hi
  · rw [firstOf, hfirst]
    rfl

end Problems

/-- The categories present are some of all, in their order, each with evidence. There is advice
exactly if they are too many, and then something is wrong with the file. What is wrong is told by
the categories as well, and categories that should not meet are placed where the one that does not
belong there first shows. -/
theorem classify_coherent (h : Heuristics) (s : Settings) (file : String) (root : Node) :
    let c := classify h s file root
    (c.responsibilities.Sublist Category.all ∧ c.responsibilities.Nodup) ∧
    ((∀ k ∈ c.responsibilities, ∃ i ∈ c.indicators, i.category = k) ∧
      .testing ∉ c.responsibilities) ∧
    ((c.isMultiple = true ↔ c.advice ≠ []) ∧ (c.isMultiple = true →
      c.advice = c.responsibilities.map .extract ∧
      c.suggestions = c.responsibilities.map (fun k => (Advice.extract k).description) ∧
      c.issues ≠ [])) ∧
    (∀ listed allowed,
      (∃ i ∈ c.issues, i.problem = .multipleResponsibilities listed allowed) ↔
        s.maxResponsibilities < c.responsibilities.length ∧ listed = c.responsibilities ∧
          allowed = s.maxResponsibilities) ∧
    (∀ m, (∃ i ∈ c.issues, i.problem = .mixedConcerns m) ↔
      .uiRendering ∈ c.responsibilities ∧ m.intruder ∈ c.responsibilities) ∧
    (c.issues.map Issue.problem).Nodup ∧
    ∀ i ∈ c.issues, ∀ m, i.problem = .mixedConcerns m →
      ∃ before first after, c.indicators = before ++ first :: after ∧
        first.category = m.intruder ∧ (∀ x ∈ before, x.category ≠ m.intruder) ∧
        i.location = ⟨file, some (first.line, first.column)⟩ := by
  intro c
  have hsublist : c.responsibilities.Sublist Category.all := presentCategories_sublist
  have hall : Category.all.Nodup := by decide
  have hshown : ∀ k ∈ c.responsibilities, ∃ i ∈ c.indicators, i.category = k :=
    fun k hk => exists_of_mem_presentCategories hk
  have hadvice : c.advice = if c.isMultiple then c.responsibilities.map .extract else [] := rfl
  have hissues : c.issues = problems s file c.responsibilities c.indicators := rfl
  refine ⟨⟨hsublist, hall.sublist hsublist⟩, ⟨hshown, not_mem_presentCategories_testing⟩,
    ⟨⟨fun hmultiple => ?_, fun hne => ?_⟩, fun hmultiple => ⟨?_, ?_, ?_⟩⟩, fun listed allowed => ?_,
    fun m => ?_, ?_, fun i hi m hproblem => ?_⟩
  · rw [hadvice, if_pos hmultiple, ne_eq, List.map_eq_nil_iff]
    exact present_ne_nil_of_areTooMany hmultiple
  · by_contra hsingle
    rw [hadvice, if_neg hsingle] at hne
    exact hne rfl
  · rw [hadvice, if_pos hmultiple]
  · rw [Classification.suggestions, hadvice, if_pos hmultiple, List.map_map]
    rfl
  · exact problems_ne_nil_of_areTooMany hmultiple
  · exact exists_multipleResponsibilities_iff
  · rw [hissues, exists_mixedConcerns_iff, mem_mixtures]
  · exact nodup_problems
  · rcases mem_problems.mp hi with ⟨m', hm', rfl⟩ | ⟨-, rfl⟩
    · obtain rfl : m' = m := Problem.mixedConcerns.inj hproblem
      exact exists_first file (hshown _ (mem_mixtures.mp hm').2)
    · exact Problem.noConfusion hproblem

/-- Markup with a handler and a query in it. -/
theorem classify_coherent_markup :
    let c := classify .default .default "a.tsx"
      (Program.read .tsx "const a = <p onClick={go}>{db.from(users).select()}</p>;").root
    c.responsibilities = [.uiRendering, .uiInteraction, .dataAccess] ∧
    (c.isMultiple = true ∧ c.issues ≠ []) ∧
    ∃ i ∈ c.issues, i.problem = .mixedConcerns .dataInUi ∧
      ∃ before first after, c.indicators = before ++ first :: after ∧
        first.category = .dataAccess ∧ (∀ x ∈ before, x.category ≠ .dataAccess) ∧
        i.location = ⟨"a.tsx", some (first.line, first.column)⟩ := by
  intro c
  have hpresent : c.responsibilities = [.uiRendering, .uiInteraction, .dataAccess] := by
    decide +kernel
  have hmultiple : c.isMultiple = true := by decide +kernel
  have hcoherent := classify_coherent .default .default "a.tsx"
    (Program.read .tsx "const a = <p onClick={go}>{db.from(users).select()}</p>;").root
  have hmixed : .uiRendering ∈ c.responsibilities ∧ .dataAccess ∈ c.responsibilities := by
    simp [hpresent]
  obtain ⟨i, hi, hproblem⟩ := (hcoherent.2.2.2.2.1 .dataInUi).mpr hmixed
  exact ⟨hpresent, ⟨hmultiple, (hcoherent.2.2.1.2 hmultiple).2.2⟩, i, hi, hproblem,
    hcoherent.2.2.2.2.2.2 i hi .dataInUi hproblem⟩

end Responsibility

end CodeAtlas
