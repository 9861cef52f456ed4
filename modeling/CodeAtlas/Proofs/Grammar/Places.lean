import CodeAtlas.Proofs.Grammar.Subtrees
import Mathlib.Order.Basic

/-! Places in a tree. A place is told by the positions of the children on the way to it, so the
order of the source is the lexicographic order of places. What is gathered from a tree is told by
the places that it is gathered from: `Lists` says that nothing is lost, doubled or out of order. -/

namespace CodeAtlas.Node

theorem sizeOf_lt_of_mem_children {n c : Node} (hc : c ∈ n.children) : sizeOf c < sizeOf n := by
  obtain ⟨kind, role, text, row, column, children⟩ := n
  have hlt : sizeOf c < sizeOf children := List.sizeOf_lt_of_mem hc
  simp only [mk.sizeOf_spec]
  omega

/-- A node is settled once its children are. -/
theorem children_induction {P : Node → Prop} (h : ∀ n, (∀ c ∈ n.children, P c) → P n) (n : Node) :
    P n :=
  h n fun c hc =>
    have := sizeOf_lt_of_mem_children hc
    children_induction h c
  termination_by sizeOf n

/-- The node at a place. -/
def at? (n : Node) : List Nat → Option Node
  | [] => some n
  | i :: place => (n.children[i]?).bind fun c => c.at? place

variable {n m : Node} {place : List Nat}

theorem at?_cons_eq_some_iff {i : Nat} :
    n.at? (i :: place) = some m ↔ ∃ c, n.children[i]? = some c ∧ c.at? place = some m :=
  Option.bind_eq_some_iff

theorem mem_subtree_of_at? (h : n.at? place = some m) : m ∈ n.subtree := by
  induction place generalizing n with
  | nil =>
    obtain rfl : n = m := Option.some.inj h
    exact mem_subtree_self n
  | cons i place ih =>
    obtain ⟨c, hc, hm⟩ := at?_cons_eq_some_iff.mp h
    exact subtreeAll_subset n (mem_subtreeAll.mpr ⟨c, List.mem_of_getElem? hc, ih hm⟩)

section Lists

variable {α β : Type}

/-- Whether marks are set, in source order, on the places that pass a test, each of them what a
relation says of the node at its place. -/
structure Marked (n : Node) (P : List Nat → Node → Prop) (R : Node → α → Prop)
    (marks : List (List Nat × α)) : Prop where
  sorted : marks.Pairwise fun a b => a.1 < b.1
  mem_iff : ∀ p, p ∈ marks.map Prod.fst ↔ ∃ m, n.at? p = some m ∧ P p m
  holds : ∀ mark ∈ marks, ∃ m, n.at? mark.1 = some m ∧ R m mark.2

/-- Whether a list has one entry for each place of a tree that passes a test and no others, in
source order, each of them what a relation says of the node at its place. -/
def Lists (n : Node) (P : List Nat → Node → Prop) (R : Node → α → Prop) (xs : List α) : Prop :=
  ∃ marks, n.Marked P R marks ∧ marks.map Prod.snd = xs

variable {P Q : List Nat → Node → Prop} {R : Node → α → Prop} {S : Node → β → Prop}
variable {xs ys : List α}

theorem Marked.exists_node {marks : List (List Nat × α)} (h : n.Marked P R marks)
    {mark : List Nat × α} (hmark : mark ∈ marks) :
    ∃ m, n.at? mark.1 = some m ∧ P mark.1 m ∧ R m mark.2 := by
  obtain ⟨m, hm, hP⟩ := (h.mem_iff mark.1).mp (List.mem_map_of_mem hmark)
  obtain ⟨m', hm', hR⟩ := h.holds mark hmark
  obtain rfl : m = m' := Option.some.inj (hm.symm.trans hm')
  exact ⟨m, hm, hP, hR⟩

theorem Marked.exists_mark {marks : List (List Nat × α)} (h : n.Marked P R marks)
    (hm : n.at? place = some m) (hP : P place m) : ∃ x, (place, x) ∈ marks ∧ R m x := by
  obtain ⟨mark, hmark, rfl⟩ := List.mem_map.mp ((h.mem_iff place).mpr ⟨m, hm, hP⟩)
  obtain ⟨m', hm', -, hR⟩ := h.exists_node hmark
  obtain rfl : m = m' := Option.some.inj (hm.symm.trans hm')
  exact ⟨mark.2, hmark, hR⟩

theorem Lists.congr (h : n.Lists P R xs)
    (hiff : ∀ p m, n.at? p = some m → (P p m ↔ Q p m)) : n.Lists Q R xs := by
  obtain ⟨marks, ⟨hsorted, hmem, hholds⟩, hxs⟩ := h
  refine ⟨marks, ⟨hsorted, fun p => (hmem p).trans ?_, hholds⟩, hxs⟩
  exact exists_congr fun m => and_congr_right (hiff p m)

theorem Lists.imp {T : Node → α → Prop} (h : n.Lists P R xs)
    (himp : ∀ p m x, n.at? p = some m → R m x → T m x) : n.Lists P T xs := by
  obtain ⟨marks, ⟨hsorted, hmem, hholds⟩, hxs⟩ := h
  refine ⟨marks, ⟨hsorted, hmem, fun mark hmark => ?_⟩, hxs⟩
  obtain ⟨m, hm, hR⟩ := hholds mark hmark
  exact ⟨m, hm, himp _ m _ hm hR⟩

/-- At most one entry, for the node itself. -/
theorem Lists.self {o : Option α} (h : ∀ x ∈ o, R n x) :
    n.Lists (fun p _ => p = [] ∧ o.isSome = true) R o.toList := by
  cases o with
  | none => exact ⟨[], ⟨.nil, by simp, by simp⟩, rfl⟩
  | some x =>
    have hx : R n x := h x rfl
    refine ⟨[([], x)], ⟨List.pairwise_singleton _ _, fun p => ?_, ?_⟩, rfl⟩
    · constructor
      · rintro hp
        obtain rfl : p = [] := by simpa using hp
        exact ⟨n, rfl, rfl, rfl⟩
      · rintro ⟨m, -, rfl, -⟩
        exact List.mem_singleton_self _
    · intro mark hmark
      rw [List.mem_singleton.mp hmark]
      exact ⟨n, rfl, hx⟩

theorem Lists.append (h : n.Lists P R xs) (h' : n.Lists Q R ys)
    (hlt : ∀ p q m m', P p m → Q q m' → p < q) :
    n.Lists (fun p m => P p m ∨ Q p m) R (xs ++ ys) := by
  obtain ⟨marks, ⟨hsorted, hmem, hholds⟩, rfl⟩ := h
  obtain ⟨marks', ⟨hsorted', hmem', hholds'⟩, rfl⟩ := h'
  refine ⟨marks ++ marks', ⟨?_, fun p => ?_, ?_⟩, List.map_append⟩
  · refine List.pairwise_append.mpr ⟨hsorted, hsorted', fun a ha b hb => ?_⟩
    obtain ⟨m, -, hm⟩ := (hmem a.1).mp (List.mem_map_of_mem ha)
    obtain ⟨m', -, hm'⟩ := (hmem' b.1).mp (List.mem_map_of_mem hb)
    exact hlt _ _ _ _ hm hm'
  · rw [List.map_append, List.mem_append, hmem, hmem', ← exists_or]
    exact exists_congr fun m => and_or_left.symm
  · exact fun mark hmark => (List.mem_append.mp hmark).elim (hholds mark) (hholds' mark)

theorem Lists.filterMap (h : n.Lists P R xs) (f : α → Option β)
    (hsome : ∀ p m x, P p m → R m x → ((f x).isSome = true ↔ Q p m))
    (hholds : ∀ m x y, R m x → f x = some y → S m y) :
    n.Lists (fun p m => P p m ∧ Q p m) S (xs.filterMap f) := by
  obtain ⟨marks, hmarked, rfl⟩ := h
  refine ⟨marks.filterMap fun a => (f a.2).map (a.1, ·), ⟨?_, fun p => ?_, ?_⟩, ?_⟩
  · refine List.Pairwise.filterMap _ (fun a a' hlt b hb b' hb' => ?_) hmarked.sorted
    obtain ⟨y, -, rfl⟩ := Option.map_eq_some_iff.mp hb
    obtain ⟨y', -, rfl⟩ := Option.map_eq_some_iff.mp hb'
    exact hlt
  · constructor
    · intro hp
      obtain ⟨b, hb, rfl⟩ := List.mem_map.mp hp
      obtain ⟨a, ha, hab⟩ := List.mem_filterMap.mp hb
      obtain ⟨y, hy, rfl⟩ := Option.map_eq_some_iff.mp hab
      obtain ⟨m, hm, hP, hR⟩ := hmarked.exists_node ha
      exact ⟨m, hm, hP, (hsome _ _ _ hP hR).mp (by rw [hy]; rfl)⟩
    · rintro ⟨m, hm, hP, hQ⟩
      obtain ⟨x, hx, hR⟩ := hmarked.exists_mark hm hP
      obtain ⟨y, hy⟩ := Option.isSome_iff_exists.mp ((hsome _ _ _ hP hR).mpr hQ)
      have hb : (p, y) ∈ marks.filterMap fun a => (f a.2).map (a.1, ·) :=
        List.mem_filterMap.mpr ⟨(p, x), hx, by rw [hy]; rfl⟩
      exact List.mem_map_of_mem hb
  · intro b hb
    obtain ⟨a, ha, hab⟩ := List.mem_filterMap.mp hb
    obtain ⟨y, hy, rfl⟩ := Option.map_eq_some_iff.mp hab
    obtain ⟨m, hm, -, hR⟩ := hmarked.exists_node ha
    exact ⟨m, hm, hholds m _ y hR hy⟩
  · rw [List.map_filterMap, List.filterMap_map]
    congr 1
    funext a
    rw [Option.map_map]
    exact congrFun Option.map_id (f a.2)

theorem Lists.pairwise (h : n.Lists P R xs) {T : α → α → Prop}
    (hT : ∀ p q m m' x y, p < q → n.at? p = some m → n.at? q = some m' → R m x → R m' y → T x y) :
    xs.Pairwise T := by
  obtain ⟨marks, ⟨hsorted, -, hholds⟩, rfl⟩ := h
  refine List.pairwise_map.mpr (hsorted.imp_of_mem fun ha hb hlt => ?_)
  obtain ⟨m, hm, hx⟩ := hholds _ ha
  obtain ⟨m', hm', hy⟩ := hholds _ hb
  exact hT _ _ _ _ _ _ hlt hm hm' hx hy

/-- The marks of trees side by side, the first of which is at a position. -/
theorem exists_marks {P : Node → List Nat → Node → Prop} {f : Node → List α} (ns : List Node)
    (h : ∀ c ∈ ns, c.Lists (P c) R (f c)) (k : Nat) :
    ∃ marks : List (List Nat × α), marks.Pairwise (fun a b => a.1 < b.1) ∧
      (∀ p, p ∈ marks.map Prod.fst ↔ ∃ i q c m,
        p = (k + i) :: q ∧ ns[i]? = some c ∧ c.at? q = some m ∧ P c q m) ∧
      (∀ mark ∈ marks, ∃ i q c m,
        mark.1 = (k + i) :: q ∧ ns[i]? = some c ∧ c.at? q = some m ∧ R m mark.2) ∧
      marks.map Prod.snd = ns.flatMap f := by
  induction ns generalizing k with
  | nil => exact ⟨[], .nil, by simp, by simp, rfl⟩
  | cons c ns ih =>
    rw [List.forall_mem_cons] at h
    obtain ⟨first, ⟨hsorted, hmem, hholds⟩, hfirst⟩ := h.1
    obtain ⟨marks, hsorted', hmem', hholds', hmarks⟩ := ih h.2 (k + 1)
    have hlater {i : Nat} : k + 1 + i = k + (i + 1) := by omega
    -- The places in the first tree begin with `k`, those in the others with what comes later.
    refine ⟨first.map (fun a => (k :: a.1, a.2)) ++ marks, ?_, fun p => ?_, ?_, ?_⟩
    · refine List.pairwise_append.mpr ⟨List.pairwise_map.mpr ?_, hsorted', fun a ha b hb => ?_⟩
      · exact hsorted.imp fun hlt => List.cons_lt_cons_iff.mpr (.inr ⟨rfl, hlt⟩)
      · obtain ⟨a, -, rfl⟩ := List.mem_map.mp ha
        obtain ⟨i, q, -, -, hb, -⟩ := (hmem' b.1).mp (List.mem_map_of_mem hb)
        rw [hb]
        exact List.cons_lt_cons_iff.mpr (.inl (by omega))
    · rw [List.map_append, List.mem_append, List.map_map, hmem']
      constructor
      · rintro (hp | ⟨i, q, d, m, rfl, hd, hm⟩)
        · obtain ⟨a, ha, rfl⟩ := List.mem_map.mp hp
          obtain ⟨m, hm, hP⟩ := (hmem a.1).mp (List.mem_map_of_mem ha)
          exact ⟨0, a.1, c, m, rfl, rfl, hm, hP⟩
        · exact ⟨i + 1, q, d, m, by rw [hlater], hd, hm⟩
      · rintro ⟨i, q, d, m, rfl, hd, hm, hP⟩
        cases i with
        | zero =>
          obtain rfl : c = d := Option.some.inj hd
          obtain ⟨a, ha, rfl⟩ := List.mem_map.mp ((hmem q).mpr ⟨m, hm, hP⟩)
          exact .inl (List.mem_map.mpr ⟨a, ha, rfl⟩)
        | succ i => exact .inr ⟨i, q, d, m, by rw [hlater], hd, hm, hP⟩
    · intro mark hmark
      rcases List.mem_append.mp hmark with hmark | hmark
      · obtain ⟨a, ha, rfl⟩ := List.mem_map.mp hmark
        obtain ⟨m, hm, hR⟩ := hholds a ha
        exact ⟨0, a.1, c, m, rfl, rfl, hm, hR⟩
      · obtain ⟨i, q, d, m, hq, hd, hm⟩ := hholds' mark hmark
        exact ⟨i + 1, q, d, m, by rw [hq, hlater], hd, hm⟩
    · rw [List.map_append, List.map_map, hmarks, List.flatMap_cons, ← hfirst]
      rfl

theorem Lists.children {P : Node → List Nat → Node → Prop} {f : Node → List α}
    (h : ∀ c ∈ n.children, c.Lists (P c) R (f c)) :
    n.Lists (fun p m => ∃ i q c, p = i :: q ∧ n.children[i]? = some c ∧ P c q m) R
      (n.children.flatMap f) := by
  obtain ⟨marks, hsorted, hmem, hholds, hmarks⟩ := exists_marks n.children h 0
  refine ⟨marks, ⟨hsorted, fun p => (hmem p).trans ?_, fun mark hmark => ?_⟩, hmarks⟩
  · constructor
    · rintro ⟨i, q, c, m, rfl, hc, hm, hP⟩
      rw [Nat.zero_add]
      exact ⟨m, at?_cons_eq_some_iff.mpr ⟨c, hc, hm⟩, i, q, c, rfl, hc, hP⟩
    · rintro ⟨m, hm, i, q, c, rfl, hc, hP⟩
      obtain ⟨c', hc', hm⟩ := at?_cons_eq_some_iff.mp hm
      obtain rfl : c = c' := Option.some.inj (hc.symm.trans hc')
      exact ⟨i, q, c, m, by rw [Nat.zero_add], hc, hm, hP⟩
  · obtain ⟨i, q, c, m, hq, hc, hm, hR⟩ := hholds mark hmark
    rw [hq, Nat.zero_add]
    exact ⟨m, at?_cons_eq_some_iff.mpr ⟨c, hc, hm⟩, hR⟩

end Lists

end CodeAtlas.Node
