import CodeAtlas.Dependency.Cycles
import CodeAtlas.Proofs.Dependency.Files
import Mathlib.Data.Fintype.Card
import Mathlib.Data.Fintype.EquivFin
import Mathlib.Data.Fintype.Sets
import Mathlib.Logic.Relation
import Mathlib.Order.WellFounded

/-! Whether there is a ring at all, packages included, is found by peeling: nodes that import none
of the others go, as often as there are nodes. What is left then stays, and every node of it imports
one of it, which nodes without a ring cannot do. -/

namespace CodeAtlas.Dependency.Graph

open Relation

variable {g : Graph} {a b : String} {paths : List String}

theorem mem_peel : a ∈ g.peel paths ↔ a ∈ paths ∧ ∃ b ∈ paths, g.Imports a b := by
  unfold peel Imports
  rw [List.mem_filter, List.any_eq_true]
  simp only [Bool.and_eq_true, beq_iff_eq, List.contains_iff_mem, List.mem_map, Edge.ends,
    Prod.mk.injEq]
  grind

theorem peel_sublist (paths : List String) : (g.peel paths).Sublist paths := List.filter_sublist

/-- As many peelings as there are nodes leave nothing to peel. -/
theorem peel_iterate (n : Nat) (h : paths.length ≤ n) :
    g.peel (g.peel^[n] paths) = g.peel^[n] paths := by
  induction n generalizing paths with
  | zero =>
    rw [List.length_eq_zero_iff.mp (Nat.le_zero.mp h)]
    rfl
  | succ n ih =>
    by_cases hfix : g.peel paths = paths
    · rw [Function.iterate_fixed hfix, hfix]
    · have hlt : (g.peel paths).length < paths.length :=
        lt_of_le_of_ne (peel_sublist paths).length_le
          fun heq => hfix ((peel_sublist paths).eq_of_length heq)
      rw [Function.iterate_succ_apply]
      exact ih (by omega)

theorem mem_peel_iterate (h : ∀ a, TransGen g.Imports a a → a ∈ paths) (n : Nat) :
    ∀ a, TransGen g.Imports a a → a ∈ g.peel^[n] paths := by
  induction n with
  | zero => exact h
  | succ n ih =>
    intro a ha
    rw [Function.iterate_succ_apply', mem_peel]
    obtain ⟨b, hab, hba⟩ := TransGen.head'_iff.mp ha
    exact ⟨ih a ha, b, ih b (.tail' hba hab), hab⟩

/-- Where every one of finitely many nodes imports one of them, there is a ring. -/
theorem exists_transGen_of_peel_eq (hfix : g.peel paths = paths) (hne : paths ≠ []) :
    ∃ a, TransGen g.Imports a a := by
  by_contra hnone
  let r : { a // a ∈ paths } → { a // a ∈ paths } → Prop := fun a b => TransGen g.Imports b a
  have htrans : IsTrans _ r := ⟨fun _ _ _ hab hbc => hbc.trans hab⟩
  have hirrefl : Std.Irrefl r := ⟨fun a ha => hnone ⟨a, ha⟩⟩
  obtain ⟨a, ha⟩ := List.exists_mem_of_ne_nil paths hne
  obtain ⟨⟨m, hm⟩, -, hmin⟩ := (Finite.wellFounded_of_trans_of_irrefl r).has_min Set.univ
    ⟨⟨a, ha⟩, trivial⟩
  rw [← hfix, mem_peel] at hm
  obtain ⟨-, b, hb, hmb⟩ := hm
  exact hmin ⟨b, hb⟩ trivial (.single hmb)

theorem hasCycles_eq : g.hasCycles =
    !(g.peel^[g.nodes.length] (g.nodes.map FileNode.path)).isEmpty := by
  rw [hasCycles, List.foldl_const]

theorem WellFormed.hasCycles_iff (h : g.WellFormed) :
    g.hasCycles = true ↔ ∃ a, TransGen g.Imports a a := by
  rw [hasCycles_eq, Bool.not_eq_true', List.isEmpty_eq_false_iff]
  constructor
  · exact exists_transGen_of_peel_eq (peel_iterate _ (List.length_map _).le)
  · rintro ⟨a, ha⟩
    refine List.ne_nil_of_mem (mem_peel_iterate (fun a ha => ?_) _ a ha)
    obtain ⟨b, hab, -⟩ := TransGen.head'_iff.mp ha
    exact contains_iff.mp (h.ends hab).1

end CodeAtlas.Dependency.Graph
