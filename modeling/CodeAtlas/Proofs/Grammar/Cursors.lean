import CodeAtlas.Proofs.Grammar.Places
import Mathlib.Logic.Function.Iterate

/-! A cursor in a tree and the loop that walks with it. The cursor moves to a first child, to a next
sibling or up to a parent, but never beside or above the node that it was made at. The loop moves
down if the visitor enters a node, and otherwise on to the next sibling of the node or of the
nearest node above that has one. It comes back from each node with all of its subtree behind it, so
it returns from the node where it began. -/

namespace CodeAtlas.Node

/-- A node and the nodes above it, the nearest first, up to the one where the cursor was made, each
with the position of the child that the cursor went down to. -/
structure Cursor where
  node : Node
  above : List (Node × Nat)

namespace Cursor

def ofNode (n : Node) : Cursor := ⟨n, []⟩

def placeOf (above : List (Node × Nat)) : List Nat := (above.map Prod.snd).reverse

/-- The place of the cursor, seen from where it was made. -/
def place (c : Cursor) : List Nat := placeOf c.above

def parent? (c : Cursor) : Option Node := c.above.head?.map Prod.fst

def firstChild? (c : Cursor) : Option Cursor :=
  (c.node.children[0]?).map fun n => ⟨n, (c.node, 0) :: c.above⟩

def nextSibling? : Cursor → Option Cursor
  | ⟨_, []⟩ => none
  | ⟨_, (parent, i) :: above⟩ =>
    (parent.children[i + 1]?).map fun n => ⟨n, (parent, i + 1) :: above⟩

def up? : Cursor → Option Cursor
  | ⟨_, []⟩ => none
  | ⟨_, (parent, _) :: above⟩ => some ⟨parent, above⟩

/-- A node that is shown to the visitor: where the cursor is, and what the visitor answers. -/
structure Showing where
  cursor : Cursor
  answer : Visit

/-- What is shown to a visitor one after the other, each in the state that the last one left. -/
inductive Exchange {σ : Type} (visit : Cursor → σ → Visit × σ) : σ → List Showing → σ → Prop where
  | nil (s : σ) : Exchange visit s [] s
  | cons {c : Cursor} {a : Visit} {s t u : σ} {shown : List Showing} (h : visit c s = (a, t))
      (hshown : Exchange visit t shown u) : Exchange visit s (⟨c, a⟩ :: shown) u

/-- Where the loop is: at a node that is still to be shown, on its way out of a node, or at its
end. -/
inductive Stage where
  | arrived (c : Cursor)
  | leaving (c : Cursor)
  | returned

/-- A loop between two of its moves. What was shown is only kept to speak of it. -/
structure Loop (σ : Type) where
  stage : Stage
  state : σ
  shown : List Showing

variable {σ : Type}

/-- One move of the loop. -/
def Loop.step (visit : Cursor → σ → Visit × σ) (l : Loop σ) : Loop σ :=
  match l.stage with
  | .arrived c =>
    let (answer, state) := visit c l.state
    let shown := l.shown ++ [⟨c, answer⟩]
    match answer, c.firstChild? with
    | .enter, some d => ⟨.arrived d, state, shown⟩
    | _, _ => ⟨.leaving c, state, shown⟩
  | .leaving c =>
    match c.nextSibling?, c.up? with
    | some d, _ => { l with stage := .arrived d }
    | none, some d => { l with stage := .leaving d }
    | none, none => { l with stage := .returned }
  | .returned => l

/-- Whether a loop gets from one point to another. -/
def Loop.Reaches (visit : Cursor → σ → Visit × σ) (l m : Loop σ) : Prop :=
  ∃ k, (step visit)^[k] l = m

mutual

/-- What a visitor has gathered behind a subtree, and what it was shown of it. -/
def tour (visit : Cursor → σ → Visit × σ) (above : List (Node × Nat)) (s : σ) :
    Node → σ × List Showing
  | ⟨kind, role, text, row, column, children⟩ =>
    let c : Cursor := ⟨⟨kind, role, text, row, column, children⟩, above⟩
    match visit c s with
    | (.skip, s) => (s, [⟨c, .skip⟩])
    | (.enter, s) =>
      let below := tourAll visit c.node above 0 s children
      (below.1, ⟨c, .enter⟩ :: below.2)

/-- The same for siblings, the first of which is at a position. -/
def tourAll (visit : Cursor → σ → Visit × σ) (parent : Node) (above : List (Node × Nat)) (i : Nat)
    (s : σ) : List Node → σ × List Showing
  | [] => (s, [])
  | n :: ns =>
    let first := tour visit ((parent, i) :: above) s n
    let others := tourAll visit parent above (i + 1) first.1 ns
    (others.1, first.2 ++ others.2)

end

variable {visit : Cursor → σ → Visit × σ} {c d : Cursor} {n parent : Node}
variable {above : List (Node × Nat)} {s t : σ} {shown : List Showing}

theorem tour_of_skip (h : visit ⟨n, above⟩ s = (.skip, t)) :
    tour visit above s n = (t, [⟨⟨n, above⟩, .skip⟩]) := by
  cases n
  rw [tour, h]

theorem tour_of_enter (h : visit ⟨n, above⟩ s = (.enter, t)) :
    tour visit above s n = ((tourAll visit n above 0 t n.children).1,
      ⟨⟨n, above⟩, .enter⟩ :: (tourAll visit n above 0 t n.children).2) := by
  cases n
  rw [tour, h]

theorem Exchange.append {shown' : List Showing} {u : σ} (h : Exchange visit s shown t)
    (h' : Exchange visit t shown' u) : Exchange visit s (shown ++ shown') u := by
  induction h with
  | nil => exact h'
  | cons hvisit _ ih => exact .cons hvisit (ih h')

theorem Exchange.exists_state (h : Exchange visit s shown t) {x : Showing} (hx : x ∈ shown) :
    ∃ u, x.answer = (visit x.cursor u).1 := by
  induction h with
  | nil => cases hx
  | @cons c a s t u shown hvisit _ ih =>
    rcases List.mem_cons.mp hx with rfl | hx
    · exact ⟨s, by rw [hvisit]⟩
    · exact ih hx

mutual

theorem exchange_tour (visit : Cursor → σ → Visit × σ) (above : List (Node × Nat)) (s : σ) :
    (n : Node) → Exchange visit s (tour visit above s n).2 (tour visit above s n).1
  | ⟨kind, role, text, row, column, children⟩ => by
    rw [tour]
    dsimp only
    split
    next hvisit => exact .cons hvisit (.nil _)
    next hvisit => exact .cons hvisit (exchange_tourAll visit _ above 0 _ children)

theorem exchange_tourAll (visit : Cursor → σ → Visit × σ) (parent : Node)
    (above : List (Node × Nat)) (i : Nat) (s : σ) : (ns : List Node) →
    Exchange visit s (tourAll visit parent above i s ns).2 (tourAll visit parent above i s ns).1
  | [] => .nil s
  | n :: ns => by
    rw [tourAll]
    exact (exchange_tour visit _ s n).append (exchange_tourAll visit parent above (i + 1) _ ns)

end

namespace Loop

variable {l m o : Loop σ}

theorem Reaches.refl (l : Loop σ) : Reaches visit l l := ⟨0, rfl⟩

theorem Reaches.of_step (h : step visit l = m) : Reaches visit l m := ⟨1, h⟩

theorem Reaches.trans (hlm : Reaches visit l m) (hmo : Reaches visit m o) : Reaches visit l o := by
  obtain ⟨j, rfl⟩ := hlm
  obtain ⟨k, rfl⟩ := hmo
  exact ⟨k + j, Function.iterate_add_apply _ k j l⟩

theorem step_arrived_skip (h : visit c s = (.skip, t)) :
    step visit ⟨.arrived c, s, shown⟩ = ⟨.leaving c, t, shown ++ [⟨c, .skip⟩]⟩ := by
  simp only [step, h]

theorem step_arrived_child (h : visit c s = (.enter, t)) (hc : c.firstChild? = some d) :
    step visit ⟨.arrived c, s, shown⟩ = ⟨.arrived d, t, shown ++ [⟨c, .enter⟩]⟩ := by
  simp only [step, h, hc]

theorem step_arrived_leaf (h : visit c s = (.enter, t)) (hc : c.firstChild? = none) :
    step visit ⟨.arrived c, s, shown⟩ = ⟨.leaving c, t, shown ++ [⟨c, .enter⟩]⟩ := by
  simp only [step, h, hc]

theorem step_leaving_sibling (h : c.nextSibling? = some d) :
    step visit ⟨.leaving c, s, shown⟩ = ⟨.arrived d, s, shown⟩ := by
  simp only [step, h]

theorem step_leaving_up (h : c.nextSibling? = none) (hup : c.up? = some d) :
    step visit ⟨.leaving c, s, shown⟩ = ⟨.leaving d, s, shown⟩ := by
  simp only [step, h, hup]

/-- Where the cursor was made there is no way on. -/
theorem step_leaving_ofNode (n : Node) :
    step visit ⟨.leaving (ofNode n), s, shown⟩ = ⟨.returned, s, shown⟩ := rfl

/-- Whether the loop, wherever it arrives at a node, comes to leave it after a tour of it. -/
def Tours (visit : Cursor → σ → Visit × σ) (n : Node) : Prop :=
  ∀ above s shown, Reaches visit ⟨.arrived ⟨n, above⟩, s, shown⟩
    ⟨.leaving ⟨n, above⟩, (tour visit above s n).1, shown ++ (tour visit above s n).2⟩

/-- From one of its children the loop goes through the others behind it, and leaves the parent. -/
theorem reaches_leaving_parent (ns : List Node) (h : ∀ c ∈ n :: ns, Tours visit c) (i : Nat)
    (hchildren : parent.children.drop i = n :: ns) (above : List (Node × Nat)) (s : σ)
    (shown : List Showing) :
    Reaches visit ⟨.arrived ⟨n, (parent, i) :: above⟩, s, shown⟩
      ⟨.leaving ⟨parent, above⟩, (tourAll visit parent above i s (n :: ns)).1,
        shown ++ (tourAll visit parent above i s (n :: ns)).2⟩ := by
  induction ns generalizing n i s shown with
  | nil =>
    have hlast : parent.children[i + 1]? = none := by
      rw [← List.getElem?_drop, hchildren]
      rfl
    refine (h n List.mem_cons_self _ s shown).trans (.of_step ?_)
    rw [step_leaving_up (by rw [nextSibling?, hlast]; rfl) rfl, tourAll, tourAll, List.append_nil]
  | cons next ns ih =>
    rw [List.forall_mem_cons] at h
    have hnext : parent.children[i + 1]? = some next := by
      rw [← List.getElem?_drop, hchildren]
      rfl
    have hdrop : parent.children.drop (i + 1) = next :: ns := by
      rw [← List.drop_drop, hchildren]
      rfl
    have hsibling : nextSibling? ⟨n, (parent, i) :: above⟩ =
        some ⟨next, (parent, i + 1) :: above⟩ := by
      rw [nextSibling?, hnext]
      rfl
    have hothers := ih h.2 (i + 1) hdrop (tour visit ((parent, i) :: above) s n).1
      (shown ++ (tour visit ((parent, i) :: above) s n).2)
    rw [tourAll, ← List.append_assoc]
    exact ((h.1 _ s shown).trans (.of_step (step_leaving_sibling hsibling))).trans hothers

/-- The loop leaves every node that it arrives at. -/
theorem tours (visit : Cursor → σ → Visit × σ) (n : Node) : Tours visit n := by
  induction n using children_induction with
  | h n ih =>
    intro above s shown
    rcases hvisit : visit ⟨n, above⟩ s with ⟨answer, t⟩
    cases answer with
    | skip =>
      rw [tour_of_skip hvisit]
      exact .of_step (step_arrived_skip hvisit)
    | enter =>
      rw [tour_of_enter hvisit]
      cases hchildren : n.children with
      | nil =>
        have hleaf : firstChild? ⟨n, above⟩ = none := by rw [firstChild?, hchildren]; rfl
        exact .of_step (step_arrived_leaf hvisit hleaf)
      | cons first ns =>
        have hfirst : firstChild? ⟨n, above⟩ = some ⟨first, (n, 0) :: above⟩ := by
          rw [firstChild?, hchildren]
          rfl
        have hbelow := reaches_leaving_parent ns (hchildren ▸ ih) 0 hchildren above t
          (shown ++ [⟨⟨n, above⟩, .enter⟩])
        rw [List.append_assoc, List.singleton_append] at hbelow
        exact .trans (.of_step (step_arrived_child hvisit hfirst)) hbelow

/-- The loop returns, with what the visitor has gathered on a tour of the tree. -/
theorem reaches_returned (visit : Cursor → σ → Visit × σ) (n : Node) (s : σ) :
    Reaches visit ⟨.arrived (ofNode n), s, []⟩
      ⟨.returned, (tour visit [] s n).1, (tour visit [] s n).2⟩ :=
  (tours visit n [] s []).trans (.of_step (step_leaving_ofNode n))

end Loop

mutual

/-- A visitor who only sees a node and its parent gathers on a tour what it gathers on a walk. -/
theorem tour_eq_walkBelow (visit : Option Node → Node → σ → Visit × σ)
    (above : List (Node × Nat)) (s : σ) : (n : Node) →
    (tour (fun c => visit c.parent? c.node) above s n).1 =
      walkBelow visit (above.head?.map Prod.fst) s n
  | ⟨kind, role, text, row, column, children⟩ => by
    rw [tour, walkBelow]
    dsimp only
    rw [parent?]
    split
    next hvisit => rw [hvisit]
    next hvisit =>
      rw [hvisit]
      exact tourAll_eq_walkAll visit _ above 0 _ children

theorem tourAll_eq_walkAll (visit : Option Node → Node → σ → Visit × σ) (parent : Node)
    (above : List (Node × Nat)) (i : Nat) (s : σ) : (ns : List Node) →
    (tourAll (fun c => visit c.parent? c.node) parent above i s ns).1 = walkAll visit parent s ns
  | [] => rfl
  | n :: ns => by
    rw [tourAll, walkAll, ← tourAll_eq_walkAll visit parent above (i + 1) _ ns]
    dsimp only
    rw [tour_eq_walkBelow visit ((parent, i) :: above) s n]
    rfl

end

end Cursor

end CodeAtlas.Node
