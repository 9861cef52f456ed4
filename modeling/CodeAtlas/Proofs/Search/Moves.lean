import CodeAtlas.Dependency.Cycles
import Mathlib.Logic.Relation

/-! A search as a sequence of moves. A step of the search is one move, or two when it leaves a file
and begins anew with another one, so what every move keeps holds of every state that the search is
ever in. -/

namespace CodeAtlas.Dependency

open Relation

namespace Search

/-- The six things that a search does. `start` begins anew with the first file not seen yet, `leave`
is done with a file, and the others follow an import: to a file that the search is in, to a new
file, to a file that it is done with, or to a new file that is too far down. -/
inductive Move (g : Graph) : Search → Search → Prop
  | start {file : String} {more done : List String} {rings : List Ring} :
      Move g ⟨file :: more, done, [], rings⟩ (enter g file ⟨file :: more, done, [], rings⟩)
  | leave {file : String} {unseen done : List String} {rest : List Frame} {rings : List Ring} :
      Move g ⟨unseen, done, ⟨file, []⟩ :: rest, rings⟩ ⟨unseen, file :: done, rest, rings⟩
  | close {file next : String} {pending unseen done : List String} {rest : List Frame}
      {rings : List Ring} (hu : next ∉ unseen) (hd : next ∉ done) :
      Move g ⟨unseen, done, ⟨file, next :: pending⟩ :: rest, rings⟩
        ⟨unseen, done, ⟨file, pending⟩ :: rest,
          ringTo ⟨unseen, done, ⟨file, pending⟩ :: rest, rings⟩ next :: rings⟩
  | descend {file next : String} {pending unseen done : List String} {rest : List Frame}
      {rings : List Ring} (hu : next ∈ unseen) (hlen : rest.length + 1 < g.maxDepth) :
      Move g ⟨unseen, done, ⟨file, next :: pending⟩ :: rest, rings⟩
        (enter g next ⟨unseen, done, ⟨file, pending⟩ :: rest, rings⟩)
  | skip {file next : String} {pending unseen done : List String} {rest : List Frame}
      {rings : List Ring} (hu : next ∉ unseen) (hd : next ∈ done) :
      Move g ⟨unseen, done, ⟨file, next :: pending⟩ :: rest, rings⟩
        ⟨unseen, done, ⟨file, pending⟩ :: rest, rings⟩
  | cut {file next : String} {pending unseen done : List String} {rest : List Frame}
      {rings : List Ring} (hu : next ∈ unseen) (hlen : g.maxDepth ≤ rest.length + 1) :
      Move g ⟨unseen, done, ⟨file, next :: pending⟩ :: rest, rings⟩
        ⟨unseen, done, ⟨file, pending⟩ :: rest, rings⟩

variable {g : Graph} {s t : Search} {P : Search → Prop}

theorem settle_of_stack_ne_nil (h : s.stack ≠ []) : s.settle g = s := by
  unfold settle
  split
  · rename_i hs _
    exact absurd hs h
  · rfl

theorem settle_moves (g : Graph) (s : Search) : ReflTransGen (Move g) s (s.settle g) := by
  obtain ⟨unseen, done, stack, rings⟩ := s
  match stack, unseen with
  | [], [] => exact .refl
  | [], file :: more => exact .single .start
  | _ :: _, _ => rw [settle_of_stack_ne_nil (List.cons_ne_nil _ _)]

theorem follow_move {file next : String} {pending unseen done : List String} {rest : List Frame}
    {rings : List Ring} : Move g ⟨unseen, done, ⟨file, next :: pending⟩ :: rest, rings⟩
      (follow g next ⟨unseen, done, ⟨file, pending⟩ :: rest, rings⟩) := by
  unfold follow mark
  by_cases hu : next ∈ unseen
  · simp only [hu, if_true, List.length_cons]
    split
    · exact .descend hu ‹_›
    · exact .cut hu (Nat.not_lt.mp ‹_›)
  · by_cases hd : next ∈ done
    · simp only [hu, hd, if_true, if_false]
      exact .skip hu hd
    · simp only [hu, hd, if_false]
      exact .close hu hd

theorem Move.unique {u : Search} (ht : Move g s t) (hu : Move g s u) : t = u := by
  cases ht <;> cases hu <;> first | rfl | contradiction | omega

theorem step_moves (g : Graph) (s : Search) : ReflTransGen (Move g) s (s.step g) := by
  obtain ⟨unseen, done, stack, rings⟩ := s
  match stack with
  | [] => exact .refl
  | ⟨file, []⟩ :: rest => exact .head .leave (settle_moves g _)
  | ⟨file, next :: pending⟩ :: rest => exact .single follow_move

theorem step_of_follow {file next : String} {pending unseen done : List String}
    {rest : List Frame} {rings : List Ring}
    (h : Move g ⟨unseen, done, ⟨file, next :: pending⟩ :: rest, rings⟩ t) (ht : t.stack ≠ []) :
    step g ⟨unseen, done, ⟨file, next :: pending⟩ :: rest, rings⟩ = t.settle g := by
  rw [settle_of_stack_ne_nil ht]
  exact follow_move.unique h

theorem Move.step_eq_settle (h : Move g s t) (hs : s.stack ≠ []) : s.step g = t.settle g := by
  cases h with
  | start => exact absurd rfl hs
  | leave => rfl
  | close hu hd => exact step_of_follow (.close hu hd) (List.cons_ne_nil _ _)
  | descend hu hlen => exact step_of_follow (.descend hu hlen) (List.cons_ne_nil _ _)
  | skip hu hd => exact step_of_follow (.skip hu hd) (List.cons_ne_nil _ _)
  | cut hu hlen => exact step_of_follow (.cut hu hlen) (List.cons_ne_nil _ _)

theorem run_moves (g : Graph) (n : Nat) (s : Search) : ReflTransGen (Move g) s (s.run g n) := by
  induction n generalizing s with
  | zero => exact .refl
  | succ n ih => exact (step_moves g s).trans (ih _)

theorem run_add (g : Graph) (m n : Nat) (s : Search) : s.run g (m + n) = (s.run g m).run g n := by
  induction m generalizing s with
  | zero => rw [Nat.zero_add, run]
  | succ m ih =>
    rw [Nat.succ_add, run, run]
    exact ih _

theorem moves_induction (hmove : ∀ {u v}, ReflTransGen (Move g) s u → Move g u v → P u → P v)
    (h : ReflTransGen (Move g) s t) (hs : P s) : P t := by
  induction h with
  | refl => exact hs
  | tail hsu huv ih => exact hmove hsu huv ih

end Search

namespace Graph

/-- The search before it has entered its first file. -/
def unstarted (g : Graph) : Search := ⟨g.files, [], [], []⟩

/-- Whether the search is in a state at some time. -/
def Visits (g : Graph) (s : Search) : Prop := ∃ n, g.start.run g n = s

def finish (g : Graph) : Search := g.start.run g g.work

variable {g : Graph} {s : Search} {P : Search → Prop}

theorem visits_finish (g : Graph) : g.Visits g.finish := ⟨g.work, rfl⟩

theorem mem_cycles {r : Ring} : r ∈ g.cycles ↔ r ∈ g.finish.rings := List.mem_reverse

theorem moves_of_visits (h : g.Visits s) : ReflTransGen (Search.Move g) g.unstarted s := by
  obtain ⟨n, rfl⟩ := h
  exact (Search.settle_moves g _).trans (Search.run_moves g n _)

/-- What holds before the search and is kept by every move holds at any time. -/
theorem visits_induction (h₀ : P g.unstarted)
    (hmove : ∀ {s t}, ReflTransGen (Search.Move g) g.unstarted s → Search.Move g s t → P s → P t)
    (h : g.Visits s) : P s :=
  Search.moves_induction hmove (moves_of_visits h) h₀

/-- What holds before the search and not at its end is given up by some move. -/
theorem exists_visits {Q : Search → Prop} (h₀ : P g.unstarted)
    (hmove : ∀ {s t}, ReflTransGen (Search.Move g) g.unstarted s → Search.Move g s t → P s →
      P t ∨ ∃ u, g.Visits u ∧ Q u)
    (hend : ¬P g.finish) : ∃ u, g.Visits u ∧ Q u := by
  have h : P g.finish ∨ ∃ u, g.Visits u ∧ Q u :=
    visits_induction (P := fun t => P t ∨ ∃ u, g.Visits u ∧ Q u) (.inl h₀)
      (fun hs hm h => h.elim (hmove hs hm) .inr) (visits_finish g)
  exact h.resolve_left hend

theorem visits_total {t : Search} (hs : g.Visits s) (ht : g.Visits t) :
    ReflTransGen (Search.Move g) s t ∨ ReflTransGen (Search.Move g) t s := by
  obtain ⟨m, rfl⟩ := hs
  obtain ⟨n, rfl⟩ := ht
  have hlater (m k : Nat) :
      ReflTransGen (Search.Move g) (g.start.run g m) (g.start.run g (m + k)) := by
    rw [Search.run_add]
    exact Search.run_moves g k _
  rcases Nat.le_total m n with hle | hle
  · obtain ⟨k, rfl⟩ := Nat.exists_eq_add_of_le hle
    exact .inl (hlater m k)
  · obtain ⟨k, rfl⟩ := Nat.exists_eq_add_of_le hle
    exact .inr (hlater n k)

/-- The search comes by every state that moves lead to, but for those in which it is in no file
although there are unseen ones. -/
theorem visits_settle_of_moves (h : ReflTransGen (Search.Move g) g.unstarted s) :
    g.Visits (s.settle g) := by
  induction h with
  | refl => exact ⟨0, rfl⟩
  | @tail s t _ hst ih =>
    obtain ⟨n, hn⟩ := ih
    by_cases hs : s.stack = []
    · cases hst with
      | start => exact ⟨n, hn⟩
      | _ => exact absurd hs (List.cons_ne_nil _ _)
    · rw [Search.settle_of_stack_ne_nil hs] at hn
      exact ⟨n + 1, by rw [Search.run_add, hn, ← hst.step_eq_settle hs]; rfl⟩

theorem visits_of_moves (h : ReflTransGen (Search.Move g) g.unstarted s) (hs : s.stack ≠ []) :
    g.Visits s :=
  Search.settle_of_stack_ne_nil hs ▸ visits_settle_of_moves h

end Graph

end CodeAtlas.Dependency
