import CodeAtlas.Proofs.Search.Invariant

/-! The search ends: the number of steps that it is given is the number of imports and files that
there are to do, and every step does one of them. In the end every file has been left. -/

namespace CodeAtlas.Dependency

namespace Search

variable {g : Graph} {s t : Search} {file : String}

/-- The steps that files cost which have not been entered. -/
def load (g : Graph) (files : List String) : Nat :=
  files.foldr (fun f n => (g.successors f).length + 1 + n) 0

/-- The steps that files cost which have been entered. -/
def rest (stack : List Frame) : Nat := stack.foldr (fun f n => f.pending.length + 1 + n) 0

def toDo (g : Graph) (s : Search) : Nat := load g s.unseen + rest s.stack

theorem load_cons : load g (file :: l) = (g.successors file).length + 1 + load g l := rfl

theorem rest_cons {f : Frame} : rest (f :: l) = f.pending.length + 1 + rest l := rfl

theorem load_perm {l₁ l₂ : List String} (h : l₁.Perm l₂) : load g l₁ = load g l₂ := by
  induction h with
  | nil => rfl
  | cons f _ ih => rw [load_cons, load_cons, ih]
  | swap f₁ f₂ l =>
    simp only [load_cons]
    omega
  | trans _ _ ih₁ ih₂ => rw [ih₁, ih₂]

theorem load_filter_ne {l : List String} (h : l.Nodup) (hmem : file ∈ l) :
    (g.successors file).length + 1 + load g (l.filter (· ≠ file)) = load g l :=
  load_perm (perm_cons_filter_ne h hmem)

theorem toDo_enter (h : s.unseen.Nodup) (hu : file ∈ s.unseen) :
    (enter g file s).toDo g = s.toDo g := by
  have hload := load_filter_ne (g := g) h hu
  simp only [toDo, enter, rest_cons]
  omega

theorem toDo_settle (h : s.unseen.Nodup) : (s.settle g).toDo g = s.toDo g := by
  unfold settle
  split
  · rename_i hs hu
    exact toDo_enter h (hu ▸ List.mem_cons_self)
  · rfl

theorem Move.toDo (hm : Move g s t) (h : s.unseen.Nodup) (hs : s.stack ≠ []) :
    t.toDo g + 1 = s.toDo g := by
  cases hm with
  | start => exact absurd rfl hs
  | leave =>
    simp only [Search.toDo, rest_cons, List.length_nil]
    omega
  | @descend file next pending unseen done rest rings hu hlen =>
    have henter := toDo_enter (g := g) (s := ⟨unseen, done, ⟨file, pending⟩ :: rest, rings⟩) h hu
    rw [henter]
    simp only [Search.toDo, rest_cons, List.length_cons]
    omega
  | close | skip | cut =>
    simp only [Search.toDo, rest_cons, List.length_cons]
    omega

theorem exists_move (hs : s.stack ≠ []) : ∃ t, Move g s t := by
  obtain ⟨unseen, done, stack, rings⟩ := s
  match stack with
  | [] => exact absurd rfl hs
  | ⟨file, []⟩ :: rest => exact ⟨_, .leave⟩
  | ⟨file, next :: pending⟩ :: rest => exact ⟨_, follow_move⟩

theorem toDo_step (hg : g.WellFormed) (h : s.Invariant g) (hs : s.stack ≠ []) :
    (s.step g).toDo g + 1 = s.toDo g := by
  obtain ⟨t, hm⟩ := exists_move hs
  rw [hm.step_eq_settle hs, toDo_settle ((hm.invariant hg h).nodup_unseen hg)]
  exact hm.toDo (h.nodup_unseen hg) hs

theorem step_of_stack_eq_nil (hs : s.stack = []) : s.step g = s := by
  unfold step
  rw [hs]

theorem run_of_stack_eq_nil (hs : s.stack = []) (n : Nat) : s.run g n = s := by
  induction n with
  | zero => rfl
  | succ n ih => rw [run, step_of_stack_eq_nil hs, ih]

theorem rest_pos (hs : s.stack ≠ []) : 0 < rest s.stack := by
  obtain ⟨f, fs, hf⟩ := List.exists_cons_of_ne_nil hs
  rw [hf, rest_cons]
  omega

theorem run_stack_eq_nil (hg : g.WellFormed) (n : Nat) (h : s.Invariant g)
    (hn : s.toDo g ≤ n) : (s.run g n).stack = [] := by
  induction n generalizing s with
  | zero =>
    by_contra hs
    have hpos := rest_pos hs
    rw [run] at hpos
    rw [toDo] at hn
    omega
  | succ n ih =>
    by_cases hs : s.stack = []
    · rw [run_of_stack_eq_nil hs, hs]
    · have hstep := toDo_step hg h hs
      exact ih (moves_induction (fun _ hm hs => hm.invariant hg hs) (step_moves g s) h) (by omega)

theorem settle_settle (s : Search) : (s.settle g).settle g = s.settle g := by
  obtain ⟨unseen, done, stack, rings⟩ := s
  match stack, unseen with
  | [], [] => rfl
  | [], _ :: _ => rfl
  | _ :: _, _ => rw [settle_of_stack_ne_nil (List.cons_ne_nil _ _)]

theorem settle_step (hs : s.settle g = s) : (s.step g).settle g = s.step g := by
  by_cases hnil : s.stack = []
  · rw [step_of_stack_eq_nil hnil, hs]
  · obtain ⟨t, hm⟩ := exists_move hnil
    rw [hm.step_eq_settle hnil, settle_settle]

theorem settle_run (hs : s.settle g = s) (n : Nat) : (s.run g n).settle g = s.run g n := by
  induction n generalizing s with
  | zero => exact hs
  | succ n ih => exact ih (settle_step hs)

theorem unseen_eq_nil_of_settle (hs : s.settle g = s) (hnil : s.stack = []) : s.unseen = [] := by
  obtain ⟨unseen, done, stack, rings⟩ := s
  match unseen with
  | [] => rfl
  | _ :: _ =>
    subst hnil
    exact absurd (congrArg stack hs) (List.cons_ne_nil _ _)

end Search

namespace Graph

variable {g : Graph} {s : Search} {P : Search → Prop}

theorem finish_stack (hg : g.WellFormed) : g.finish.stack = [] := by
  have hinv : g.start.Invariant g := Visits.invariant ⟨0, rfl⟩ hg
  refine Search.run_stack_eq_nil hg g.work hinv ?_
  have htoDo : g.start.toDo g = g.unstarted.toDo g :=
    Search.toDo_settle ((Search.Invariant.unstarted g).nodup_unseen hg)
  exact htoDo.le

theorem run_eq_finish (hg : g.WellFormed) {n : Nat} (hn : g.work ≤ n) :
    g.start.run g n = g.finish := by
  obtain ⟨m, rfl⟩ := Nat.exists_eq_add_of_le hn
  rw [Search.run_add]
  exact Search.run_of_stack_eq_nil (finish_stack hg) m

theorem Visits.settled (h : g.Visits s) : s.settle g = s := by
  obtain ⟨n, rfl⟩ := h
  exact Search.settle_run (Search.settle_settle _) n

theorem finish_unseen (hg : g.WellFormed) : g.finish.unseen = [] :=
  Search.unseen_eq_nil_of_settle (visits_finish g).settled (finish_stack hg)

/-- In the end the search has left every file. -/
theorem finish_done (hg : g.WellFormed) : g.finish.done.Perm g.files := by
  have hpart := ((visits_finish g).invariant hg).partition
  rwa [finish_unseen hg, Search.entered, finish_stack hg] at hpart

/-- What holds at some time of the search and is kept by every move holds in the end. -/
theorem Visits.finish_induction (h : g.Visits s) (hg : g.WellFormed) (hs : P s)
    (hmove : ∀ {s t}, Search.Move g s t → s.Invariant g → P s → P t) : P g.finish := by
  have hrun (m : Nat) : P (s.run g m) :=
    (Search.moves_induction (P := fun s => s.Invariant g ∧ P s)
      (fun _ hm hs => ⟨hm.invariant hg hs.1, hmove hm hs.1 hs.2⟩) (Search.run_moves g m s)
      ⟨h.invariant hg, hs⟩).2
  obtain ⟨n, rfl⟩ := h
  rcases Nat.le_total n g.work with hle | hle
  · obtain ⟨m, hm⟩ := Nat.exists_eq_add_of_le hle
    rw [Graph.finish, hm, Search.run_add]
    exact hrun m
  · exact run_eq_finish hg hle ▸ hs

end Graph

end CodeAtlas.Dependency
