import CodeAtlas.Program
import CodeAtlas.Shape
import CodeAtlas.Proofs.Grammar.Cursors
import CodeAtlas.Proofs.Grammar.Walks
import Mathlib.Data.Set.Card

/-! What a loop shows to its visitor: the node where the cursor was made and everything below it but
for what is below a node that the visitor skips, each place once and in source order. -/

namespace CodeAtlas.Node

variable {n m : Node} {p q : List Nat}

theorem at?_append (p q : List Nat) : n.at? (p ++ q) = (n.at? p).bind (·.at? q) := by
  induction p generalizing n with
  | nil => rfl
  | cons i p ih =>
    rw [List.cons_append, at?, at?, Option.bind_assoc]
    exact congrArg _ (funext fun c => ih)

namespace Cursor

variable {shown first others : List Showing} {base : List Nat} {a : Visit} {i : Nat}

/-- Whether a place was shown and had an answer. -/
def Answered (shown : List Showing) (p : List Nat) (a : Visit) : Prop :=
  ∃ x ∈ shown, x.cursor.place = p ∧ x.answer = a

/-- Whether no node above a place of a subtree was skipped. -/
def Open (shown : List Showing) (base p : List Nat) : Prop :=
  ∀ q, q <+: p → q ≠ p → ¬Answered shown (base ++ q) .skip

theorem answered_append :
    Answered (first ++ others) p a ↔ Answered first p a ∨ Answered others p a := by
  simp only [Answered, List.mem_append, or_and_right, exists_or]

theorem answered_cons {x : Showing} :
    Answered (x :: shown) p a ↔ (x.cursor.place = p ∧ x.answer = a) ∨ Answered shown p a := by
  simp only [Answered, List.exists_mem_cons_iff]

/-- Whether all that is to be shown of a subtree was shown, in source order. -/
structure Covers (n : Node) (base : List Nat) (shown : List Showing) : Prop where
  sorted : shown.Pairwise fun x y => x.cursor.place < y.cursor.place
  answered_iff : ∀ p, (∃ a, Answered shown (base ++ p) a) ↔
    (n.at? p).isSome = true ∧ Open shown base p
  holds : ∀ x ∈ shown, ∃ p, x.cursor.place = base ++ p ∧ n.at? p = some x.cursor.node

/-- The same for siblings, the first of which is at a position. -/
structure CoversAll (ns : List Node) (base : List Nat) (i : Nat) (shown : List Showing) : Prop where
  sorted : shown.Pairwise fun x y => x.cursor.place < y.cursor.place
  answered_iff : ∀ k p, (∃ a, Answered shown (base ++ [i + k] ++ p) a) ↔
    ∃ c, ns[k]? = some c ∧ (c.at? p).isSome = true ∧ Open shown (base ++ [i + k]) p
  holds : ∀ x ∈ shown, ∃ k p c,
    x.cursor.place = base ++ [i + k] ++ p ∧ ns[k]? = some c ∧ c.at? p = some x.cursor.node

theorem CoversAll.nil (base : List Nat) (i : Nat) : CoversAll [] base i [] :=
  ⟨.nil, by simp [Answered], by simp⟩

theorem Covers.answered_place (h : Covers n base shown) (hp : Answered shown p a) :
    ∃ q, p = base ++ q := by
  obtain ⟨x, hx, rfl, -⟩ := hp
  obtain ⟨q, hq, -⟩ := h.holds x hx
  exact ⟨q, hq⟩

theorem CoversAll.answered_place {ns : List Node} (h : CoversAll ns base i shown)
    (hp : Answered shown p a) : ∃ k q, p = base ++ [i + k] ++ q := by
  obtain ⟨x, hx, rfl, -⟩ := hp
  obtain ⟨k, q, c, hq, -⟩ := h.holds x hx
  exact ⟨k, q, hq⟩

theorem position_inj {j : Nat} (h : base ++ [i] ++ p = base ++ [j] ++ q) : i = j := by
  rw [List.append_assoc, List.append_assoc] at h
  exact (List.cons.inj (List.append_cancel_left h)).1

theorem open_congr (h : ∀ q a, Answered first (base ++ q) a ↔ Answered others (base ++ q) a) :
    Open first base p ↔ Open others base p := by
  simp only [Open, h]

theorem CoversAll.cons {c : Node} {ns : List Node} (hc : Covers c (base ++ [i]) first)
    (hns : CoversAll ns base (i + 1) others) : CoversAll (c :: ns) base i (first ++ others) := by
  -- What is shown at or below a position is shown in the tour of the sibling there.
  have hfirst (q : List Nat) (a : Visit) : Answered (first ++ others) (base ++ [i] ++ q) a ↔
      Answered first (base ++ [i] ++ q) a := by
    rw [answered_append, or_iff_left]
    intro h
    obtain ⟨k, q', heq⟩ := hns.answered_place h
    have := position_inj heq
    omega
  have hothers (k : Nat) (q : List Nat) (a : Visit) :
      Answered (first ++ others) (base ++ [i + 1 + k] ++ q) a ↔
        Answered others (base ++ [i + 1 + k] ++ q) a := by
    rw [answered_append, or_iff_right]
    intro h
    obtain ⟨q', heq⟩ := hc.answered_place h
    have := position_inj heq
    omega
  have hnext (k : Nat) : i + (k + 1) = i + 1 + k := by omega
  refine ⟨List.pairwise_append.mpr ⟨hc.sorted, hns.sorted, fun x hx y hy => ?_⟩, fun k p => ?_,
    fun x hx => ?_⟩
  · obtain ⟨p, hp, -⟩ := hc.holds x hx
    obtain ⟨k, q, -, hq, -⟩ := hns.holds y hy
    rw [hp, hq, List.append_assoc, List.append_assoc]
    exact List.append_left_lt (List.cons_lt_cons_iff.mpr (.inl (by omega)))
  · cases k with
    | zero =>
      rw [Nat.add_zero, exists_congr (hfirst p), hc.answered_iff p, open_congr hfirst]
      exact ⟨fun h => ⟨c, rfl, h⟩, fun ⟨d, hd, h⟩ => Option.some.inj hd ▸ h⟩
    | succ k =>
      rw [hnext, exists_congr (hothers k p), hns.answered_iff k p]
      simp only [List.getElem?_cons_succ, open_congr (hothers k)]
  · rcases List.mem_append.mp hx with hx | hx
    · obtain ⟨p, hp, hm⟩ := hc.holds x hx
      exact ⟨0, p, c, hp, rfl, hm⟩
    · obtain ⟨k, p, d, hp, hd, hm⟩ := hns.holds x hx
      exact ⟨k + 1, p, d, hnext k ▸ hp, hd, hm⟩

/-- A node that is skipped is all that is shown. -/
theorem covers_skip (n : Node) (above : List (Node × Nat)) :
    Covers n (placeOf above) [⟨⟨n, above⟩, .skip⟩] := by
  have hself (a : Visit) (q : List Nat) :
      Answered [⟨⟨n, above⟩, .skip⟩] (placeOf above ++ q) a ↔ q = [] ∧ a = .skip := by
    simp [Answered, place, eq_comm]
  refine ⟨List.pairwise_singleton _ _, fun p => ?_, fun x hx => ?_⟩
  · simp only [hself, exists_eq_right, Open]
    cases p with
    | nil => simp [at?]
    | cons i p => simp
  · rw [List.mem_singleton.mp hx]
    exact ⟨[], (List.append_nil _).symm, rfl⟩

section Entered

variable {above : List (Node × Nat)}

theorem CoversAll.answered_self (h : CoversAll n.children (placeOf above) 0 shown) :
    Answered (⟨⟨n, above⟩, .enter⟩ :: shown) (placeOf above) a ↔ a = .enter := by
  rw [answered_cons, or_iff_left]
  · exact ⟨fun h => h.2.symm, fun h => ⟨rfl, h.symm⟩⟩
  · intro hbelow
    obtain ⟨k, q, heq⟩ := h.answered_place hbelow
    simp at heq

theorem answered_below : Answered (⟨⟨n, above⟩, .enter⟩ :: shown) (placeOf above ++ i :: q) a ↔
    Answered shown (placeOf above ++ [i] ++ q) a := by
  rw [answered_cons, List.append_assoc, List.singleton_append, or_iff_right]
  rintro ⟨hself, -⟩
  simp [place] at hself

theorem CoversAll.open_cons_iff (h : CoversAll n.children (placeOf above) 0 shown) :
    Open (⟨⟨n, above⟩, .enter⟩ :: shown) (placeOf above) (i :: p) ↔
      Open shown (placeOf above ++ [i]) p := by
  constructor
  · intro hopen q hq hne
    rw [← answered_below]
    exact hopen (i :: q) (List.cons_prefix_cons.mpr ⟨rfl, hq⟩) fun heq => hne (List.cons.inj heq).2
  · intro hopen q hq hne
    rcases List.prefix_cons_iff.mp hq with rfl | ⟨q, rfl, htail⟩
    · rw [List.append_nil, h.answered_self]
      exact Visit.noConfusion
    · rw [answered_below]
      exact hopen q htail fun heq => hne (by rw [heq])

/-- Below a node that is entered its children are shown. -/
theorem CoversAll.covers (h : CoversAll n.children (placeOf above) 0 shown) :
    Covers n (placeOf above) (⟨⟨n, above⟩, .enter⟩ :: shown) := by
  refine ⟨List.pairwise_cons.mpr ⟨fun x hx => ?_, h.sorted⟩, fun p => ?_, fun x hx => ?_⟩
  · obtain ⟨k, p, c, hp, -⟩ := h.holds x hx
    have hlt : placeOf above ++ [] < placeOf above ++ ([0 + k] ++ p) :=
      List.append_left_lt (List.nil_lt_cons (0 + k) p)
    rw [List.append_nil, ← List.append_assoc, ← hp] at hlt
    exact hlt
  · cases p with
    | nil =>
      rw [List.append_nil]
      refine iff_of_true ⟨.enter, h.answered_self.mpr rfl⟩ ⟨rfl, fun q hq hne => ?_⟩
      exact absurd (List.prefix_nil.mp hq) hne
    | cons i p =>
      have hchild := h.answered_iff i p
      rw [Nat.zero_add] at hchild
      rw [exists_congr fun a => answered_below, hchild, h.open_cons_iff, at?]
      cases n.children[i]? <;> simp
  · rcases List.mem_cons.mp hx with rfl | hx
    · exact ⟨[], (List.append_nil _).symm, rfl⟩
    · obtain ⟨k, p, c, hp, hc, hm⟩ := h.holds x hx
      rw [Nat.zero_add, List.append_assoc, List.singleton_append] at hp
      exact ⟨k :: p, hp, at?_cons_eq_some_iff.mpr ⟨c, hc, hm⟩⟩

end Entered

variable {σ : Type}

mutual

/-- A tour covers its subtree. -/
theorem covers_tour (visit : Cursor → σ → Visit × σ) (above : List (Node × Nat)) (s : σ) :
    (n : Node) → Covers n (placeOf above) (tour visit above s n).2
  | ⟨kind, role, text, row, column, children⟩ => by
    rw [tour]
    dsimp only
    split
    · exact covers_skip _ above
    · exact (coversAll_tourAll visit _ above 0 _ children).covers

theorem coversAll_tourAll (visit : Cursor → σ → Visit × σ) (parent : Node)
    (above : List (Node × Nat)) (i : Nat) (s : σ) :
    (ns : List Node) → CoversAll ns (placeOf above) i (tourAll visit parent above i s ns).2
  | [] => .nil _ i
  | n :: ns => by
    have hfirst := covers_tour visit ((parent, i) :: above) s n
    rw [placeOf, List.map_cons, List.reverse_cons] at hfirst
    rw [tourAll]
    exact .cons hfirst (coversAll_tourAll visit parent above (i + 1) _ ns)

end

end Cursor

section Branches

theorem foldl_count {α : Type} (f : α → Bool) (xs : List α) (k : Nat) :
    xs.foldl (fun k x => if f x then k + 1 else k) k = k + xs.countP f := by
  induction xs generalizing k with
  | nil => rfl
  | cons x xs ih =>
    rw [List.foldl_cons, ih, List.countP_cons]
    split <;> omega

theorem branches_eq_countP (n : Node) :
    n.branches = (met (fun _ => true) none n).countP (·.2.isBranch) := by
  have hfoldl : n.branches = (met (fun _ => true) none n).foldl
      (fun k x => if x.2.isBranch then k + 1 else k) 0 :=
    walk_eq_foldl (fun _ _ _ => rfl) 0 n
  rw [hfoldl, foldl_count, Nat.zero_add]

/-- A tree has as many branches as it has places with one. -/
theorem branches_eq_ncard (n : Node) :
    n.branches = {p | ∃ m, n.at? p = some m ∧ m.isBranch = true}.ncard := by
  have hmet : n.Lists (fun p _ => n.Reached (fun _ => true) p) (fun m x => x.2 = m)
      (met (fun _ => true) none n) := lists_met n none
  have hlists : n.Lists (fun p m => n.Reached (fun _ => true) p ∧ m.isBranch = true)
      (fun m x => x.2 = m) ((met (fun _ => true) none n).filterMap
        fun x => if x.2.isBranch then some x else none) := by
    refine hmet.filterMap _ ?_ ?_
    · rintro p m x - rfl
      split <;> simp [*]
    · rintro m x y rfl hy
      split at hy
      · rw [← Option.some.inj hy]
      · cases hy
  obtain ⟨marks, hmarked, hmarks⟩ := hlists
  have hnodup : (marks.map Prod.fst).Nodup :=
    List.pairwise_map.mpr (hmarked.sorted.imp fun hlt => ne_of_lt hlt)
  have hplaces : {p | ∃ m, n.at? p = some m ∧ m.isBranch = true} =
      ((marks.map Prod.fst).toFinset : Set (List Nat)) := by
    ext p
    rw [List.coe_toFinset]
    refine Iff.trans ?_ (hmarked.mem_iff p).symm
    exact exists_congr fun m => and_congr_right fun _ =>
      ⟨fun h => ⟨fun _ _ _ _ _ => rfl, h⟩, And.right⟩
  have hcount (x : Option Node × Node) :
      (if x.2.isBranch then some x else none).isSome = x.2.isBranch := by
    split <;> simp [*]
  rw [hplaces, Set.ncard_coe_finset, List.toFinset_card_of_nodup hnodup, List.length_map,
    ← List.length_map Prod.snd, hmarks, List.length_filterMap_eq_countP, branches_eq_countP]
  simp only [hcount]

end Branches

namespace Cursor

variable {tree : Node} {start : List Nat} {shown : List Showing}

/-- Whether each place of a tree from a start down was shown once, in source order, with the node at
it, but for the places below a node that was skipped, and no other place was shown. -/
structure ShowsOnce (tree : Node) (start : List Nat) (shown : List Showing) : Prop where
  sorted : (shown.map (start ++ ·.cursor.place)).Pairwise (· < ·)
  mem_iff : ∀ p, p ∈ shown.map (start ++ ·.cursor.place) ↔
    start <+: p ∧ (tree.at? p).isSome = true ∧ ∀ q, start <+: q → q <+: p → q ≠ p →
      ¬∃ x ∈ shown, start ++ x.cursor.place = q ∧ x.answer = .skip
  node_at : ∀ x ∈ shown, tree.at? (start ++ x.cursor.place) = some x.cursor.node

theorem at?_start (h : tree.at? start = some n) (p : List Nat) :
    tree.at? (start ++ p) = n.at? p := by
  rw [at?_append, h]
  rfl

theorem Covers.showsOnce (h : tree.at? start = some n) (hcovers : Covers n [] shown) :
    ShowsOnce tree start shown := by
  have hanswered (p : List Nat) (a : Visit) : (∃ x ∈ shown, start ++ x.cursor.place = start ++ p ∧
      x.answer = a) ↔ Answered shown ([] ++ p) a := by
    simp only [Answered, List.append_cancel_left_eq, List.nil_append]
  refine ⟨List.pairwise_map.mpr (hcovers.sorted.imp List.append_left_lt), fun p => ?_,
    fun x hx => ?_⟩
  · constructor
    · intro hp
      obtain ⟨x, hx, rfl⟩ := List.mem_map.mp hp
      have hmem : ∃ a, Answered shown ([] ++ x.cursor.place) a := ⟨x.answer, x, hx, rfl, rfl⟩
      obtain ⟨hsome, hopen⟩ := (hcovers.answered_iff x.cursor.place).mp hmem
      refine ⟨List.prefix_append _ _, at?_start h _ ▸ hsome, ?_⟩
      rintro _ ⟨q, rfl⟩ hq hne
      rw [hanswered]
      exact hopen q ((List.prefix_append_right_inj start).mp hq) fun heq => hne (by rw [heq])
    · rintro ⟨⟨p, rfl⟩, hsome, hopen⟩
      rw [at?_start h] at hsome
      have hp : ∃ a, Answered shown ([] ++ p) a := by
        refine (hcovers.answered_iff p).mpr ⟨hsome, fun q hq hne => ?_⟩
        rw [← hanswered]
        exact hopen (start ++ q) (List.prefix_append _ _)
          ((List.prefix_append_right_inj start).mpr hq)
          fun heq => hne (List.append_cancel_left heq)
      obtain ⟨a, x, hx, hplace, -⟩ := hp
      exact List.mem_map.mpr ⟨x, hx, congrArg (start ++ ·) hplace⟩
  · obtain ⟨p, hp, hm⟩ := hcovers.holds x hx
    rw [at?_start h, hp]
    exact hm

theorem ncard_branches (h : tree.at? start = some n) :
    n.branches = {p | start <+: p ∧ ∃ m, tree.at? p = some m ∧ m.isBranch = true}.ncard := by
  have hset : {p | start <+: p ∧ ∃ m, tree.at? p = some m ∧ m.isBranch = true} =
      (start ++ ·) '' {p | ∃ m, n.at? p = some m ∧ m.isBranch = true} := by
    ext p
    constructor
    · rintro ⟨⟨p, rfl⟩, hm⟩
      rw [at?_start h] at hm
      exact ⟨p, hm, rfl⟩
    · rintro ⟨p, hm, rfl⟩
      refine ⟨List.prefix_append _ _, ?_⟩
      simp only [at?_start h]
      exact hm
  rw [hset, Set.ncard_image_of_injective _ (List.append_right_injective start),
    branches_eq_ncard]

/-- A loop that begins at a place of a tree returns, whatever the visitor answers. It has shown the
visitor, one after the other, the node there and all that is below it but not below a node that was
skipped, each place once and in source order. What it brings back is what the walk over the node
gathers. The branches of the node are the places with a branch at it or below it. -/
theorem loop_shows_once (h : tree.at? start = some n) :
    (∀ (σ : Type) (visit : Cursor → σ → Visit × σ) (s : σ), ∃ k t shown,
      (Loop.step visit)^[k] ⟨.arrived (ofNode n), s, []⟩ = ⟨.returned, t, shown⟩ ∧
        Exchange visit s shown t ∧ ShowsOnce tree start shown) ∧
    (∀ (σ : Type) (visit : Option Node → Node → σ → Visit × σ) (s : σ), ∃ k shown,
      (Loop.step fun c => visit c.parent? c.node)^[k] ⟨.arrived (ofNode n), s, []⟩ =
          ⟨.returned, n.walk visit s, shown⟩ ∧
        Exchange (fun c => visit c.parent? c.node) s shown (n.walk visit s) ∧
        ShowsOnce tree start shown) ∧
    n.branches = {p | start <+: p ∧ ∃ m, tree.at? p = some m ∧ m.isBranch = true}.ncard := by
  have hloop (σ : Type) (visit : Cursor → σ → Visit × σ) (s : σ) : ∃ k shown,
      (Loop.step visit)^[k] ⟨.arrived (ofNode n), s, []⟩ =
          ⟨.returned, (tour visit [] s n).1, shown⟩ ∧
        Exchange visit s shown (tour visit [] s n).1 ∧ ShowsOnce tree start shown := by
    obtain ⟨k, hk⟩ := Loop.reaches_returned visit n s
    exact ⟨k, _, hk, exchange_tour visit [] s n, (covers_tour visit [] s n).showsOnce h⟩
  refine ⟨fun σ visit s => ?_, fun σ visit s => ?_, ncard_branches h⟩
  · obtain ⟨k, shown, hshown⟩ := hloop σ visit s
    exact ⟨k, _, shown, hshown⟩
  · have hwalk := hloop σ (fun c => visit c.parent? c.node) s
    rw [tour_eq_walkBelow] at hwalk
    exact hwalk

/-- Counts identifiers, but not within branches. -/
def outside : Option Node → Node → Nat → Visit × Nat := fun _ m k =>
  if m.isBranch then (.skip, k) else (.enter, if m.kind = .identifier then k + 1 else k)

/-- A visitor who skips branches is shown the branch in the body of a function, but not the one
within it. -/
theorem loop_shows_once_body :
    let tree := (Program.read .typeScript
      "function f(x) \x7b if (x) \x7b while (y) g(); \x7d \x7d").root
    ∃ n, tree.at? [0, 3] = some n ∧ n.branches = 2 ∧
      {p | [0, 3] <+: p ∧ ∃ m, tree.at? p = some m ∧ m.isBranch = true}.ncard = 2 ∧
      ∃ k shown, (Loop.step fun c => outside c.parent? c.node)^[k] ⟨.arrived (ofNode n), 0, []⟩ =
          ⟨.returned, n.walk outside 0, shown⟩ ∧
        [0, 3, 1] ∈ shown.map ([0, 3] ++ ·.cursor.place) ∧
        [0, 3, 1, 2, 1] ∉ shown.map ([0, 3] ++ ·.cursor.place) := by
  intro tree
  have hbody : (tree.at? [0, 3]).map (fun n => (n.branches, n.isBranch)) = some (2, false) := by
    decide +kernel
  have hinner : (tree.at? [0, 3, 1]).map isBranch = some true ∧
      (tree.at? [0, 3, 1, 2, 1]).map isBranch = some true := by
    decide +kernel
  obtain ⟨n, hn, hboth⟩ := Option.map_eq_some_iff.mp hbody
  obtain ⟨m, hm, hbranch⟩ := Option.map_eq_some_iff.mp hinner.1
  obtain ⟨hbranches, hplain⟩ := Prod.mk.inj hboth
  obtain ⟨-, hwalk, hcount⟩ := loop_shows_once hn
  obtain ⟨k, shown, hreturned, hexchange, hshows⟩ := hwalk Nat outside 0
  have hanswer {x : Showing} (hx : x ∈ shown) :
      x.answer = if x.cursor.node.isBranch then .skip else .enter := by
    obtain ⟨u, hu⟩ := hexchange.exists_state hx
    rw [hu, outside]
    split <;> rfl
  have hmet : [0, 3, 1] ∈ shown.map ([0, 3] ++ ·.cursor.place) := by
    refine (hshows.mem_iff _).mpr ⟨by decide, by rw [hm]; rfl, fun q hfrom hto hne hskip => ?_⟩
    obtain ⟨x, hx, rfl, hskip⟩ := hskip
    have hnode := hshows.node_at x hx
    have hplace : x.cursor.place = [] := by
      have hbelow : x.cursor.place <+: [1] := (List.prefix_append_right_inj [0, 3]).mp hto
      rcases List.prefix_cons_iff.mp hbelow with hself | ⟨q, hq, hq'⟩
      · exact hself
      · exact absurd (by rw [hq, List.prefix_nil.mp hq']; rfl) hne
    rw [hplace, List.append_nil, hn] at hnode
    rw [hanswer hx, ← Option.some.inj hnode, hplain] at hskip
    cases hskip
  refine ⟨n, hn, hbranches, hcount ▸ hbranches, k, shown, hreturned, hmet, fun hbelow => ?_⟩
  obtain ⟨x, hx, hplace⟩ := List.mem_map.mp hmet
  have hnode := hshows.node_at x hx
  rw [hplace, hm] at hnode
  refine ((hshows.mem_iff _).mp hbelow).2.2 [0, 3, 1] (by decide) (by decide) (by decide) ?_
  refine ⟨x, hx, hplace, ?_⟩
  rw [hanswer hx, ← Option.some.inj hnode, hbranch]
  rfl

end Cursor

end CodeAtlas.Node
