import CodeAtlas.Proofs.Grammar.Places

/-! Walks that decide by the node alone whether to go on to its children. Such a walk meets the
nodes that it reaches in the order of their places, and no node starts before one that was met
earlier if the tree is in the order of its source. -/

namespace CodeAtlas.Node

variable {n m : Node} {place : List Nat}

section Walks

/-- Whether all nodes on the way to a place let the walk go on to their children. -/
def Reached (enters : Node → Bool) (n : Node) (place : List Nat) : Prop :=
  ∀ q a, q <+: place → q ≠ place → n.at? q = some a → enters a = true

mutual

/-- The nodes that a walk meets, each with its parent. -/
def met (enters : Node → Bool) (parent : Option Node) : Node → List (Option Node × Node)
  | ⟨kind, role, text, row, column, children⟩ =>
    let n : Node := ⟨kind, role, text, row, column, children⟩
    (parent, n) :: if enters n then metAll enters n children else []

def metAll (enters : Node → Bool) (parent : Node) : List Node → List (Option Node × Node)
  | [] => []
  | n :: ns => met enters (some parent) n ++ metAll enters parent ns

end

variable {enters : Node → Bool} {parent : Option Node}

theorem metAll_eq (parent : Node) (ns : List Node) :
    metAll enters parent ns = ns.flatMap (met enters (some parent)) := by
  induction ns with
  | nil => rfl
  | cons n ns ih => rw [metAll, ih, List.flatMap_cons]

theorem met_eq (parent : Option Node) (n : Node) : met enters parent n =
    (parent, n) :: if enters n then n.children.flatMap (met enters (some n)) else [] := by
  obtain ⟨kind, role, text, row, column, children⟩ := n
  rw [met, metAll_eq]

theorem reached_nil : n.Reached enters [] :=
  fun _ _ hq hne => absurd (List.prefix_nil.mp hq) hne

theorem reached_cons_iff {i : Nat} {c : Node} (hc : n.children[i]? = some c) :
    n.Reached enters (i :: place) ↔ enters n = true ∧ c.Reached enters place := by
  constructor
  · intro h
    refine ⟨h [] n (List.nil_prefix) (List.cons_ne_nil _ _).symm rfl, fun q a hq hne ha => ?_⟩
    refine h (i :: q) a (List.cons_prefix_cons.mpr ⟨rfl, hq⟩) ?_ ?_
    · exact fun heq => hne (List.cons.inj heq).2
    · exact at?_cons_eq_some_iff.mpr ⟨c, hc, ha⟩
  · rintro ⟨hn, h⟩ q a hq hne ha
    rcases List.prefix_cons_iff.mp hq with rfl | ⟨q, rfl, htail⟩
    · obtain rfl : n = a := Option.some.inj ha
      exact hn
    · obtain ⟨c', hc', ha⟩ := at?_cons_eq_some_iff.mp ha
      obtain rfl : c = c' := Option.some.inj (hc.symm.trans hc')
      exact h q a htail (fun heq => hne (by rw [heq])) ha

/-- A walk meets the nodes that it reaches, in source order. -/
theorem lists_met (n : Node) (parent : Option Node) :
    n.Lists (fun p _ => n.Reached enters p) (fun m x => x.2 = m) (met enters parent n) := by
  induction n using children_induction generalizing parent with
  | h n ih =>
    have hself : n.Lists (fun p _ => p = [] ∧ (some (parent, n)).isSome = true)
        (fun m x => x.2 = m) [(parent, n)] :=
      Lists.self fun x hx => by
        rw [← Option.some.inj hx]
    rw [met_eq]
    cases henters : enters n with
    | false =>
      refine hself.congr fun p m hm => ?_
      cases p with
      | nil => simp [reached_nil]
      -- Below a node that is not entered nothing is reached, so the node is all that is met.
      | cons i p =>
        obtain ⟨c, hc, -⟩ := at?_cons_eq_some_iff.mp hm
        simp [reached_cons_iff hc, henters]
    | true =>
      have hchildren := Lists.children fun c hc => ih c hc (some n)
      refine (hself.append hchildren ?_).congr fun p m hm => ?_
      · rintro p q m m' ⟨rfl, -⟩ ⟨i, q, -, rfl, -⟩
        exact List.nil_lt_cons i q
      · cases p with
        | nil => simp [reached_nil]
        | cons i p =>
          obtain ⟨c, hc, -⟩ := at?_cons_eq_some_iff.mp hm
          rw [reached_cons_iff hc, henters]
          constructor
          · rintro (⟨hp, -⟩ | ⟨i, q, d, hp, hd, hq⟩)
            · exact absurd hp (List.cons_ne_nil i p)
            · obtain ⟨rfl, rfl⟩ := List.cons.inj hp
              obtain rfl : c = d := Option.some.inj (hc.symm.trans hd)
              exact ⟨rfl, hq⟩
          · exact fun h => .inr ⟨i, p, c, rfl, hc, h.2⟩

variable {σ : Type} {visit : Option Node → Node → σ → Visit × σ}

mutual

theorem walkBelow_eq_foldl
    (hvisit : ∀ parent n s, (visit parent n s).1 = if enters n then .enter else .skip)
    (parent : Option Node) (s : σ) : (n : Node) → walkBelow visit parent s n =
      (met enters parent n).foldl (fun s x => (visit x.1 x.2 s).2) s
  | ⟨kind, role, text, row, column, children⟩ => by
    have hn := hvisit parent ⟨kind, role, text, row, column, children⟩ s
    rw [walkBelow, met, List.foldl_cons]
    split
    next hskip =>
      rw [hskip] at hn ⊢
      cases henters : enters ⟨kind, role, text, row, column, children⟩ with
      | false => rfl
      | true => simp [henters] at hn
    next henter =>
      rw [henter] at hn ⊢
      cases henters : enters ⟨kind, role, text, row, column, children⟩ with
      | false => simp [henters] at hn
      | true => exact walkAll_eq_foldl hvisit _ _ children

theorem walkAll_eq_foldl
    (hvisit : ∀ parent n s, (visit parent n s).1 = if enters n then .enter else .skip)
    (parent : Node) (s : σ) : (ns : List Node) → walkAll visit parent s ns =
      (metAll enters parent ns).foldl (fun s x => (visit x.1 x.2 s).2) s
  | [] => rfl
  | n :: ns => by
    rw [walkAll, metAll, List.foldl_append, walkBelow_eq_foldl hvisit, walkAll_eq_foldl hvisit]

end

/-- A visitor who decides by the node alone is shown what the walk reaches. -/
theorem walk_eq_foldl
    (hvisit : ∀ parent n s, (visit parent n s).1 = if enters n then .enter else .skip)
    (s : σ) (n : Node) :
    n.walk visit s = (met enters none n).foldl (fun s x => (visit x.1 x.2 s).2) s :=
  walkBelow_eq_foldl hvisit none s n

end Walks

section Order

/-- Whether no node starts before one that comes earlier in source order. -/
def InOrder (n : Node) : Prop :=
  n.subtree.Pairwise fun a b => a.row < b.row ∨ a.row = b.row ∧ a.column ≤ b.column

instance (n : Node) : Decidable n.InOrder :=
  inferInstanceAs (Decidable (List.Pairwise _ _))

theorem pairwise_subtreeAll {T : Node → Node → Prop} {ns : List Node} {i j : Nat} {c d : Node}
    (h : (subtreeAll ns).Pairwise T) (hij : i < j) (hc : ns[i]? = some c) (hd : ns[j]? = some d) :
    ∀ a ∈ c.subtree, ∀ b ∈ d.subtree, T a b := by
  induction ns generalizing i j with
  | nil => exact absurd hc (by simp)
  | cons e ns ih =>
    obtain ⟨j, rfl⟩ := Nat.exists_eq_add_of_lt hij
    rw [subtreeAll, List.pairwise_append] at h
    cases i with
    | zero =>
      obtain rfl : e = c := Option.some.inj hc
      rw [Nat.zero_add, List.getElem?_cons_succ] at hd
      intro a ha b hb
      exact h.2.2 a ha b (mem_subtreeAll.mpr ⟨d, List.mem_of_getElem? hd, hb⟩)
    | succ i =>
      have hd' : ns[i + j + 1]? = some d := by
        rw [← hd, ← List.getElem?_cons_succ]
        congr 1
        omega
      exact ih h.2.1 (by omega) hc hd'

/-- Rows grow with places. -/
theorem InOrder.row_le (h : n.InOrder) {p q : List Nat} {a b : Node} (hlt : p < q)
    (ha : n.at? p = some a) (hb : n.at? q = some b) : a.row ≤ b.row := by
  have hrow {a b : Node} (h : a.row < b.row ∨ a.row = b.row ∧ a.column ≤ b.column) :
      a.row ≤ b.row := h.elim Nat.le_of_lt fun h => Nat.le_of_eq h.1
  induction p generalizing n q with
  | nil =>
    obtain rfl : n = a := Option.some.inj ha
    cases q with
    | nil => exact absurd hlt (List.not_lt_nil _)
    | cons j q =>
      unfold InOrder at h
      rw [subtree_eq, List.pairwise_cons] at h
      obtain ⟨d, hd, hb⟩ := at?_cons_eq_some_iff.mp hb
      have hmem : b ∈ subtreeAll n.children :=
        mem_subtreeAll.mpr ⟨d, List.mem_of_getElem? hd, mem_subtree_of_at? hb⟩
      exact hrow (h.1 b hmem)
  | cons i p ih =>
    cases q with
    | nil => exact absurd hlt (List.not_lt_nil _)
    | cons j q =>
      obtain ⟨c, hc, ha⟩ := at?_cons_eq_some_iff.mp ha
      obtain ⟨d, hd, hb⟩ := at?_cons_eq_some_iff.mp hb
      rcases List.cons_lt_cons_iff.mp hlt with hij | ⟨rfl, hpq⟩
      · unfold InOrder at h
        rw [subtree_eq, List.pairwise_cons] at h
        exact hrow (pairwise_subtreeAll h.2 hij hc hd a (mem_subtree_of_at? ha) b
          (mem_subtree_of_at? hb))
      · obtain rfl : c = d := Option.some.inj (hc.symm.trans hd)
        exact ih (h.sublist (subtree_sublist (List.mem_of_getElem? hc))) hpq ha hb

end Order

end CodeAtlas.Node
