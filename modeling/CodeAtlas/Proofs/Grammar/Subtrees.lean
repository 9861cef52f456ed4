import CodeAtlas.Node

/-! A walk meets the nodes of a subtree: all of them, in source order, if the visitor always enters,
and no others, whatever the visitor does. -/

namespace CodeAtlas.Node

theorem subtree_eq (n : Node) : n.subtree = n :: subtreeAll n.children := by
  cases n
  rfl

theorem mem_subtreeAll {m : Node} {ns : List Node} :
    m ∈ subtreeAll ns ↔ ∃ n ∈ ns, m ∈ n.subtree := by
  induction ns with
  | nil => simp [subtreeAll]
  | cons n ns ih => simp [subtreeAll, ih]

theorem mem_subtree_self (n : Node) : n ∈ n.subtree := by
  rw [subtree_eq]
  exact List.mem_cons_self

theorem subtreeAll_subset (n : Node) : subtreeAll n.children ⊆ n.subtree := by
  rw [subtree_eq]
  exact List.subset_cons_self n _

theorem subtree_sublist_subtreeAll {n : Node} {ns : List Node} (h : n ∈ ns) :
    n.subtree.Sublist (subtreeAll ns) := by
  induction ns with
  | nil => exact absurd h List.not_mem_nil
  | cons m ns ih =>
    rw [subtreeAll]
    rcases List.mem_cons.mp h with rfl | h
    · exact List.sublist_append_left _ _
    · exact (ih h).trans (List.sublist_append_right _ _)

theorem subtree_sublist {n c : Node} (h : c ∈ n.children) : c.subtree.Sublist n.subtree := by
  rw [subtree_eq n]
  exact (subtree_sublist_subtreeAll h).cons n

section Children

open scoped List

mutual

/-- Every node of a subtree is its root or a child of one of its nodes, and only once. -/
theorem subtree_perm : (n : Node) → n.subtree ~ n :: n.subtree.flatMap children
  | ⟨kind, role, text, row, column, ns⟩ => by
    rw [subtree, List.flatMap_cons]
    exact (subtreeAll_perm ns).cons _

theorem subtreeAll_perm : (ns : List Node) →
    subtreeAll ns ~ ns ++ (subtreeAll ns).flatMap children
  | [] => .nil
  | n :: ns => by
    rw [subtreeAll, List.flatMap_append]
    calc n.subtree ++ subtreeAll ns
      _ ~ (n :: n.subtree.flatMap children) ++ (ns ++ (subtreeAll ns).flatMap children) :=
        (subtree_perm n).append (subtreeAll_perm ns)
      _ = n :: ((n.subtree.flatMap children ++ ns) ++ (subtreeAll ns).flatMap children) := by
        rw [List.cons_append, List.append_assoc]
      _ ~ n :: ((ns ++ n.subtree.flatMap children) ++ (subtreeAll ns).flatMap children) :=
        (List.perm_append_comm.append_right _).cons n
      _ = n :: ns ++ (n.subtree.flatMap children ++ (subtreeAll ns).flatMap children) := by
        rw [List.append_assoc, List.cons_append]

end

theorem children_subset_subtree {root n : Node} (h : n ∈ root.subtree) :
    n.children ⊆ root.subtree := by
  intro c hc
  rw [(subtree_perm root).mem_iff]
  exact List.mem_cons_of_mem _ (List.mem_flatMap.mpr ⟨n, h, hc⟩)

end Children

section Walks

variable {σ : Type}

mutual

theorem walkBelow_enter (visit : Node → σ → σ) (parent : Option Node) (s : σ) : (n : Node) →
    walkBelow (fun _ m s => (.enter, visit m s)) parent s n =
      n.subtree.foldl (fun s m => visit m s) s
  | ⟨kind, role, text, row, column, children⟩ => by
    rw [walkBelow, subtree, List.foldl_cons]
    exact walkAll_enter visit _ _ children

theorem walkAll_enter (visit : Node → σ → σ) (parent : Node) (s : σ) : (ns : List Node) →
    walkAll (fun _ m s => (.enter, visit m s)) parent s ns =
      (subtreeAll ns).foldl (fun s m => visit m s) s
  | [] => rfl
  | n :: ns => by
    rw [walkAll, subtreeAll, List.foldl_append, walkBelow_enter, walkAll_enter]

end

theorem walk_enter (visit : Node → σ → σ) (s : σ) (n : Node) :
    n.walk (fun _ m s => (.enter, visit m s)) s = n.subtree.foldl (fun s m => visit m s) s :=
  walkBelow_enter visit none s n

variable {visit : Option Node → Node → σ → Visit × σ} {P : σ → Prop}

mutual

theorem walkBelow_induction : (n : Node) → (parent : Option Node) → (s : σ) → P s →
    (∀ m ∈ n.subtree, ∀ parent s, P s → P (visit parent m s).2) →
      P (walkBelow visit parent s n)
  | ⟨kind, role, text, row, column, children⟩ => by
    intro parent s hs hstep
    have hself := hstep _ (mem_subtree_self _) parent s hs
    unfold walkBelow
    dsimp only
    split
    next hvisit => rwa [hvisit] at hself
    next hvisit =>
      rw [hvisit] at hself
      apply walkAll_induction children _ _ hself
      intro m hm
      exact hstep m (subtreeAll_subset _ hm)

theorem walkAll_induction : (ns : List Node) → (parent : Node) → (s : σ) → P s →
    (∀ m ∈ subtreeAll ns, ∀ parent s, P s → P (visit parent m s).2) →
      P (walkAll visit parent s ns)
  | [] => fun _ _ hs _ => hs
  | n :: ns => by
    intro parent s hs hstep
    rw [walkAll]
    apply walkAll_induction ns
    · apply walkBelow_induction n _ _ hs
      intro m hm
      exact hstep m (List.mem_append_left _ hm)
    · intro m hm
      exact hstep m (List.mem_append_right _ hm)

end

/-- What each visit keeps holds after a walk. -/
theorem walk_induction {s : σ} {n : Node} (hs : P s)
    (hstep : ∀ m ∈ n.subtree, ∀ parent s, P s → P (visit parent m s).2) : P (n.walk visit s) :=
  walkBelow_induction n none s hs hstep

end Walks

end CodeAtlas.Node
