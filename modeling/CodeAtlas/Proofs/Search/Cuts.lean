import CodeAtlas.Proofs.Search.End
import CodeAtlas.Proofs.Search.Following
import Mathlib.Data.List.Sort

/-! The imports that are passed over because they lead too far down. As every import is taken up at
one time, a search is the search of the graph without them, in which no file is too far down: the
two go through the same states, but that the one with the imports passes over them. -/

namespace CodeAtlas.Dependency

open Relation

namespace Search

/-- The import that the search is about to pass over: its file is unseen, and too far down. -/
def cut? (g : Graph) (s : Search) : Option (String × String) :=
  match s.stack with
  | ⟨file, next :: _⟩ :: _ =>
    if next ∈ s.unseen ∧ g.maxDepth ≤ s.stack.length then some (file, next) else none
  | _ => none

end Search

/-- The imports that are passed over, in the order in which they are. -/
def Graph.cuts (g : Graph) : List (String × String) :=
  (List.range g.work).filterMap fun n => (g.start.run g n).cut? g

def Frame.without (cuts : List (String × String)) (f : Frame) : Frame :=
  ⟨f.file, f.pending.filter fun next => (f.file, next) ∉ cuts⟩

def Search.without (cuts : List (String × String)) (s : Search) : Search :=
  { s with stack := s.stack.map (Frame.without cuts) }

/-- Whether a graph is another one without the imports that are passed over there. -/
structure Graph.LeavesOutCuts (h g : Graph) : Prop where
  files : h.files = g.files
  successors : ∀ a, h.successors a = (g.successors a).filter fun b => (a, b) ∉ g.cuts
  maxDepth : g.maxDepth ≤ h.maxDepth

namespace Search

variable {g h : Graph} {s t : Search} {a b file next : String} {cuts : List (String × String)}
  {pending : List String}

theorem cut?_eq_some_iff : s.cut? g = some (a, b) ↔
    s.Follows a b ∧ b ∈ s.unseen ∧ g.maxDepth ≤ s.stack.length := by
  obtain ⟨unseen, done, stack, rings⟩ := s
  match stack with
  | [] => simp [cut?, Follows]
  | ⟨file, []⟩ :: rest => simp [cut?, Follows]
  | ⟨file, next :: pending⟩ :: rest =>
    simp only [cut?, Follows, Option.ite_none_right_eq_some, Option.some.injEq, Prod.mk.injEq]
    constructor
    · rintro ⟨hcut, rfl, rfl⟩
      exact ⟨⟨pending, rest, rfl⟩, hcut⟩
    · rintro ⟨⟨pending', rest', hstack⟩, hcut⟩
      obtain ⟨hframe, -⟩ := List.cons.inj hstack
      obtain ⟨rfl, hpending⟩ := Frame.mk.inj hframe
      obtain ⟨rfl, -⟩ := List.cons.inj hpending
      exact ⟨hcut, rfl, rfl⟩

theorem frame_without_of_mem (h : (file, next) ∈ cuts) :
    Frame.without cuts ⟨file, next :: pending⟩ = Frame.without cuts ⟨file, pending⟩ := by
  simp [Frame.without, h]

theorem frame_without_of_not_mem (h : (file, next) ∉ cuts) :
    Frame.without cuts ⟨file, next :: pending⟩ =
      ⟨file, next :: (Frame.without cuts ⟨file, pending⟩).pending⟩ := by
  simp [Frame.without, h]

theorem ringTo_without (cuts : List (String × String)) :
    (s.without cuts).ringTo file = s.ringTo file := by
  have hchain : (s.without cuts).chain = s.chain := by
    rw [chain, without, List.map_map]
    rfl
  rw [ringTo, ringTo, hchain]

theorem settle_of_unseen_eq_nil (hs : s.unseen = []) : s.settle g = s := by
  obtain ⟨unseen, done, stack, rings⟩ := s
  subst hs
  cases stack <;> rfl

theorem without_enter (hgh : h.LeavesOutCuts g) :
    (enter g file s).without g.cuts = enter h file (s.without g.cuts) := by
  rw [enter, enter, hgh.successors]
  rfl

end Search

namespace Graph

variable {g h : Graph} {s t : Search} {a b : String}

theorem mem_cuts (hg : g.WellFormed) : (a, b) ∈ g.cuts ↔
    ∃ s, g.Visits s ∧ s.Follows a b ∧ b ∈ s.unseen ∧ g.maxDepth ≤ s.stack.length := by
  rw [cuts, List.mem_filterMap]
  constructor
  · rintro ⟨n, -, hcut⟩
    exact ⟨_, ⟨n, rfl⟩, Search.cut?_eq_some_iff.mp hcut⟩
  · rintro ⟨_, ⟨n, rfl⟩, hcut⟩
    refine ⟨n, List.mem_range.mpr ?_, Search.cut?_eq_some_iff.mpr hcut⟩
    -- The search has ended after so many steps, and takes up no import then.
    by_contra hn
    obtain ⟨⟨pending, rest, hstack⟩, -⟩ := hcut
    rw [run_eq_finish hg (Nat.not_lt.mp hn), finish_stack hg] at hstack
    exact List.cons_ne_nil _ _ hstack.symm

theorem Visits.mem_cuts_iff (hs : g.Visits s) (hg : g.WellFormed) (hab : s.Follows a b) :
    (a, b) ∈ g.cuts ↔ b ∈ s.unseen ∧ g.maxDepth ≤ s.stack.length := by
  rw [mem_cuts hg]
  constructor
  · rintro ⟨t, ht, hab', hcut⟩
    rwa [follows_unique hg hs ht hab hab']
  · exact fun hcut => ⟨s, hs, hab, hcut⟩

/-- An import that is passed over is left out of the other search, and any other one is taken up
there as it is here. -/
theorem move_without (hg : g.WellFormed) (hgh : h.LeavesOutCuts g)
    (hs : ReflTransGen (Search.Move g) g.unstarted s) (hm : Search.Move g s t) :
    ReflTransGen (Search.Move h) (s.without g.cuts) (t.without g.cuts) := by
  have hcut (a b : String) (hab : s.Follows a b) :
      (a, b) ∈ g.cuts ↔ b ∈ s.unseen ∧ g.maxDepth ≤ s.stack.length := by
    obtain ⟨pending, rest, hstack⟩ := hab
    have hvisits : g.Visits s := visits_of_moves hs (hstack ▸ List.cons_ne_nil _ _)
    exact hvisits.mem_cuts_iff hg ⟨pending, rest, hstack⟩
  cases hm with
  | start =>
    rw [Search.without_enter hgh]
    exact .single .start
  | leave => exact .single .leave
  | @close file next pending unseen done rest rings hu hd =>
    have hkept : (file, next) ∉ g.cuts := fun hmem => hu ((hcut _ _ ⟨_, _, rfl⟩).mp hmem).1
    rw [Search.without, List.map_cons, Search.frame_without_of_not_mem hkept,
      ← Search.ringTo_without g.cuts]
    exact .single (.close hu hd)
  | @descend file next pending unseen done rest rings hu hlen =>
    have hkept : (file, next) ∉ g.cuts := fun hmem =>
      Nat.not_lt.mpr ((hcut _ _ ⟨_, _, rfl⟩).mp hmem).2 hlen
    rw [Search.without_enter hgh, Search.without, List.map_cons,
      Search.frame_without_of_not_mem hkept]
    refine .single (.descend hu ?_)
    rw [List.length_map]
    exact hlen.trans_le hgh.maxDepth
  | @skip file next pending unseen done rest rings hu hd =>
    have hkept : (file, next) ∉ g.cuts := fun hmem => hu ((hcut _ _ ⟨_, _, rfl⟩).mp hmem).1
    rw [Search.without, List.map_cons, Search.frame_without_of_not_mem hkept]
    exact .single (.skip hu hd)
  | @cut file next pending unseen done rest rings hu hlen =>
    have hmem : (file, next) ∈ g.cuts := (hcut _ _ ⟨_, _, rfl⟩).mpr ⟨hu, hlen⟩
    rw [Search.without, List.map_cons, Search.frame_without_of_mem hmem]
    exact .refl

theorem moves_without (hg : g.WellFormed) (hgh : h.LeavesOutCuts g)
    (hs : ReflTransGen (Search.Move g) g.unstarted s) :
    ReflTransGen (Search.Move h) h.unstarted (s.without g.cuts) := by
  induction hs with
  | refl =>
    rw [unstarted, hgh.files]
    exact .refl
  | tail hs hm ih => exact ih.trans (move_without hg hgh hs hm)

theorem Visits.eq_finish (hs : g.Visits s) (hg : g.WellFormed) (hstack : s.stack = []) :
    s = g.finish := by
  obtain ⟨n, rfl⟩ := hs
  rcases Nat.le_total n g.work with hle | hle
  · obtain ⟨m, hm⟩ := Nat.exists_eq_add_of_le hle
    rw [finish, hm, Search.run_add, Search.run_of_stack_eq_nil hstack]
  · exact run_eq_finish hg hle

/-- Without the imports that are passed over, the same rings are found. -/
theorem LeavesOutCuts.cycles (hgh : h.LeavesOutCuts g) (hg : g.WellFormed) (hh : h.WellFormed) :
    h.cycles = g.cycles := by
  have hmoves := moves_without hg hgh (moves_of_visits (visits_finish g))
  have hstack : (g.finish.without g.cuts).stack = [] := by
    rw [Search.without, finish_stack hg, List.map_nil]
  have hend : (g.finish.without g.cuts).settle h = g.finish.without g.cuts :=
    Search.settle_of_unseen_eq_nil (finish_unseen hg)
  have hvisits : h.Visits (g.finish.without g.cuts) := hend ▸ visits_settle_of_moves hmoves
  rw [Graph.cycles, ← finish, ← hvisits.eq_finish hh hstack]
  rfl

/-- A graph without the imports that are passed over in it, searched as far down as there are
files. -/
def uncut (g : Graph) : Graph :=
  { g with
    edges := g.edges.filter fun e => e.ends ∉ g.cuts
    maxDepth := max g.maxDepth g.files.length }

theorem imports_uncut : g.uncut.Imports a b ↔ g.Imports a b ∧ (a, b) ∉ g.cuts := by
  rw [Imports, Imports, uncut, List.mem_map, List.mem_map]
  constructor
  · rintro ⟨e, he, hends⟩
    obtain ⟨he, hkept⟩ := List.mem_filter.mp he
    exact ⟨⟨e, he, hends⟩, hends ▸ of_decide_eq_true hkept⟩
  · rintro ⟨⟨e, he, hends⟩, hkept⟩
    exact ⟨e, List.mem_filter.mpr ⟨he, decide_eq_true (hends ▸ hkept)⟩, hends⟩

theorem fileImport_uncut : g.uncut.FileImport a b ↔ g.FileImport a b ∧ (a, b) ∉ g.cuts := by
  rw [FileImport, FileImport, imports_uncut, and_assoc, and_assoc]
  rfl

theorem WellFormed.uncut (hg : g.WellFormed) : g.uncut.WellFormed where
  paths := hg.paths
  edges := hg.edges.sublist (List.filter_sublist.map Edge.ends)
  ends := fun hab => hg.ends (imports_uncut.mp hab).1

theorem leavesOutCuts_uncut (hg : g.WellFormed) : g.uncut.LeavesOutCuts g where
  files := rfl
  successors := fun a => by
    have hsorted := hg.sorted_successors (a := a)
    refine hg.uncut.sorted_successors.eq_of_mem_iff (hsorted.sublist List.filter_sublist) ?_
    intro b
    rw [List.mem_filter, mem_successors, mem_successors, imports_uncut, decide_eq_true_iff,
      and_right_comm]
    rfl
  maxDepth := Nat.le_max_left _ _

theorem cycles_uncut (hg : g.WellFormed) : g.uncut.cycles = g.cycles :=
  (leavesOutCuts_uncut hg).cycles hg hg.uncut

end Graph

end CodeAtlas.Dependency
