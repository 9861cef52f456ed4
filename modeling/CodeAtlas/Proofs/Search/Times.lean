import CodeAtlas.Proofs.Search.End
import CodeAtlas.Proofs.Search.Entering
import CodeAtlas.Proofs.Search.Following

/-! The times of a search. Every step does one thing, so what is still to do tells how many steps
have been made, and no state comes twice. A file is entered at one time and an import between files
is taken up at one time, so a search makes as many steps as there are files and such imports. -/

namespace CodeAtlas.Dependency

open Relation

namespace Search

variable {g : Graph} {s t : Search} {file a b : String}

def PutsOff (s : Search) (a b : String) : Prop := ∃ f ∈ s.stack, f.file = a ∧ b ∈ f.pending

theorem Follows.stack_ne_nil (h : s.Follows a b) : s.stack ≠ [] := by
  obtain ⟨pending, rest, hstack⟩ := h
  rw [hstack]
  exact List.cons_ne_nil _ _

theorem PutsOff.enter (h : s.PutsOff a b) : (enter g file s).PutsOff a b := by
  obtain ⟨f, hf, hfile, hb⟩ := h
  exact ⟨f, List.mem_cons_of_mem _ hf, hfile, hb⟩

/-- An import that is put off on the file on top is the next one or is put off after it. -/
theorem PutsOff.advance {next : String} {pending unseen done : List String} {rest : List Frame}
    {rings rings' : List Ring}
    (h : PutsOff ⟨unseen, done, ⟨file, next :: pending⟩ :: rest, rings⟩ a b) :
    Follows ⟨unseen, done, ⟨file, next :: pending⟩ :: rest, rings⟩ a b ∨
      PutsOff ⟨unseen, done, ⟨file, pending⟩ :: rest, rings'⟩ a b := by
  obtain ⟨f, hf, rfl, hb⟩ := h
  rcases List.mem_cons.mp hf with rfl | hf
  · rcases List.mem_cons.mp hb with rfl | hb
    · exact .inl ⟨pending, rest, rfl⟩
    · exact .inr ⟨_, List.mem_cons_self, rfl, hb⟩
  · exact .inr ⟨f, List.mem_cons_of_mem _ hf, rfl, hb⟩

theorem PutsOff.move (h : s.PutsOff a b) (hm : Move g s t) : s.Follows a b ∨ t.PutsOff a b := by
  cases hm with
  | start => exact .inr h.enter
  | leave =>
    obtain ⟨f, hf, hfile, hb⟩ := h
    rcases List.mem_cons.mp hf with rfl | hf
    · exact absurd hb List.not_mem_nil
    · exact .inr ⟨f, hf, hfile, hb⟩
  | descend => exact h.advance.imp_right PutsOff.enter
  | close | skip | cut => exact h.advance

end Search

namespace Graph

variable {g : Graph} {s : Search} {P : Search → Prop} {file a b : String} {m n : Nat}

section Steps

theorem toDo_eq_zero_iff (hs : g.Visits s) : s.toDo g = 0 ↔ s.stack = [] := by
  constructor
  · intro hzero
    by_contra hstack
    have hpos := Search.rest_pos hstack
    unfold Search.toDo at hzero
    omega
  · intro hstack
    have hunseen : s.unseen = [] := Search.unseen_eq_nil_of_settle hs.settled hstack
    rw [Search.toDo, hstack, hunseen]
    rfl

/-- Every step does one of the things to do. -/
theorem toDo_run (hg : g.WellFormed) (hn : n ≤ g.work) :
    (g.start.run g n).toDo g + n = g.work := by
  induction n with
  | zero => exact Search.toDo_settle ((Search.Invariant.unstarted g).nodup_unseen hg)
  | succ n ih =>
    have htoDo := ih (Nat.le_of_succ_le hn)
    have hvisits : g.Visits (g.start.run g n) := ⟨n, rfl⟩
    have hstack : (g.start.run g n).stack ≠ [] := by
      rw [ne_eq, ← toDo_eq_zero_iff hvisits]
      omega
    have hstep := Search.toDo_step hg (hvisits.invariant hg) hstack
    have hrun : g.start.run g (n + 1) = (g.start.run g n).step g := by
      rw [Search.run_add]
      rfl
    rw [hrun]
    omega

theorem stack_run_eq_nil_iff (hg : g.WellFormed) :
    (g.start.run g n).stack = [] ↔ g.work ≤ n := by
  constructor
  · intro hstack
    have hzero := (toDo_eq_zero_iff ⟨n, rfl⟩).mpr hstack
    by_contra hn
    have htoDo := toDo_run hg (Nat.le_of_not_le hn)
    omega
  · intro hn
    rw [run_eq_finish hg hn]
    exact finish_stack hg

/-- No state comes twice before the end. -/
theorem eq_of_run_eq (hg : g.WellFormed) (hstack : (g.start.run g m).stack ≠ [])
    (h : g.start.run g m = g.start.run g n) : m = n := by
  have hlt {k : Nat} (hk : (g.start.run g k).stack ≠ []) : k < g.work := by
    rw [ne_eq, stack_run_eq_nil_iff hg] at hk
    exact Nat.not_le.mp hk
  have hm := toDo_run hg (hlt hstack).le
  have hn := toDo_run hg (hlt (h ▸ hstack)).le
  rw [h] at hm
  omega

/-- What holds in one state of the search, before the end, holds at one time. -/
theorem existsUnique_time (hg : g.WellFormed) (hs : g.Visits s) (h : P s)
    (hstack : ∀ {t}, P t → t.stack ≠ [])
    (hunique : ∀ {t u}, g.Visits t → g.Visits u → P t → P u → t = u) :
    ∃! n, P (g.start.run g n) := by
  obtain ⟨n, rfl⟩ := hs
  refine ⟨n, h, fun m hm => ?_⟩
  exact eq_of_run_eq hg (hstack hm) (hunique ⟨m, rfl⟩ ⟨n, rfl⟩ hm h)

end Steps

section Files

theorem exists_entering (hg : g.WellFormed) (hfile : g.isFile file = true) :
    ∃ s, g.Visits s ∧ s.Entering g file := by
  -- Until then the file is unseen, and in the end no file is.
  refine exists_visits (P := fun t => file ∈ t.unseen) (hg.mem_files_iff.mpr hfile)
    (fun {s t} hs hm hu => ?_) ?_
  · refine (hm.unseen_or_entering hu).imp_right fun hentering => ?_
    exact ⟨t, visits_of_moves (hs.tail hm) hentering.stack_ne_nil, hentering⟩
  · rw [finish_unseen hg]
    exact List.not_mem_nil

theorem existsUnique_entering (hg : g.WellFormed) (hfile : g.isFile file = true) :
    ∃! n, (g.start.run g n).Entering g file := by
  obtain ⟨s, hs, hentering⟩ := exists_entering hg hfile
  exact existsUnique_time hg hs hentering Search.Entering.stack_ne_nil (entering_unique hg)

theorem Visits.isFile_of_entering (hs : g.Visits s) (hg : g.WellFormed)
    (h : s.Entering g file) : g.isFile file = true :=
  (hs.invariant hg).isFile_entered hg h.mem_entered

end Files

section Imports

theorem exists_follows (hg : g.WellFormed) (hab : g.FileImport a b) :
    ∃ s, g.Visits s ∧ s.Follows a b := by
  have hsucc : b ∈ g.successors a := (fileImport_iff.mp hab).2
  -- An import that is put off stays so until it is taken up, and in the end none is put off.
  refine exists_visits (P := fun t => a ∈ t.unseen ∨ t.PutsOff a b)
    (.inl (hg.mem_files_iff.mpr hab.1)) (fun {s t} hs hm h => ?_) ?_
  · rcases h with hu | hoff
    · refine .inl ((hm.unseen_or_entering hu).imp_right fun hentering => ?_)
      exact ⟨_, List.mem_of_mem_head? hentering, rfl, hsucc⟩
    · rcases hoff.move hm with hfollows | hoff
      · exact .inr ⟨s, visits_of_moves hs hfollows.stack_ne_nil, hfollows⟩
      · exact .inl (.inr hoff)
  · rw [finish_unseen hg, Search.PutsOff, finish_stack hg]
    simp

theorem existsUnique_follows (hg : g.WellFormed) (hab : g.FileImport a b) :
    ∃! n, (g.start.run g n).Follows a b := by
  obtain ⟨s, hs, hfollows⟩ := exists_follows hg hab
  exact existsUnique_time hg hs hfollows Search.Follows.stack_ne_nil (follows_unique hg)

theorem Visits.fileImport_of_follows (hs : g.Visits s) (hg : g.WellFormed)
    (h : s.Follows a b) : g.FileImport a b := by
  obtain ⟨pending, rest, hstack⟩ := h
  have hinv := hs.invariant hg
  obtain ⟨unseen, done, stack, rings⟩ := s
  subst hstack
  exact hinv.fileImport_top hg

end Imports

section Size

/-- The edges between files. -/
def fileEdges (g : Graph) : List Edge :=
  g.edges.filter fun e => g.isFile e.source && g.isFile e.target

theorem mem_ends_fileEdges : (a, b) ∈ g.fileEdges.map Edge.ends ↔ g.FileImport a b := by
  rw [fileEdges, FileImport, Imports, List.mem_map, List.mem_map]
  constructor
  · rintro ⟨e, he, hends⟩
    obtain ⟨rfl, rfl⟩ := Prod.mk.inj hends
    obtain ⟨he, hfiles⟩ := List.mem_filter.mp he
    obtain ⟨hsource, htarget⟩ := Bool.and_eq_true_iff.mp hfiles
    exact ⟨hsource, htarget, e, he, rfl⟩
  · rintro ⟨hsource, htarget, e, he, hends⟩
    obtain ⟨rfl, rfl⟩ := Prod.mk.inj hends
    exact ⟨e, List.mem_filter.mpr ⟨he, Bool.and_eq_true_iff.mpr ⟨hsource, htarget⟩⟩, rfl⟩

theorem WellFormed.nodup_ends_fileEdges (hg : g.WellFormed) : (g.fileEdges.map Edge.ends).Nodup :=
  hg.edges.sublist (List.filter_sublist.map Edge.ends)

theorem WellFormed.perm_ends_fileEdges (hg : g.WellFormed) :
    (g.files.flatMap fun a => (g.successors a).map fun b => (a, b)).Perm
      (g.fileEdges.map Edge.ends) := by
  refine (List.perm_ext_iff_of_nodup ?_ hg.nodup_ends_fileEdges).mpr fun ⟨a, b⟩ => ?_
  · refine List.nodup_flatMap.mpr ⟨fun a _ => ?_, ?_⟩
    · have hnodup : (g.successors a).Nodup := hg.sorted_successors.imp ne_of_lt
      exact hnodup.map fun b c h => (Prod.mk.inj h).2
    · refine hg.nodup_files.imp fun hne => List.disjoint_left.mpr fun x hx hx' => hne ?_
      obtain ⟨b, -, rfl⟩ := List.mem_map.mp hx
      obtain ⟨c, -, h⟩ := List.mem_map.mp hx'
      exact (Prod.mk.inj h).1.symm
  · rw [mem_ends_fileEdges, fileImport_iff, ← hg.mem_files_iff]
    simp

/-- Every file is left once, and every import between files is taken up once. -/
theorem work_eq (hg : g.WellFormed) : g.work = g.files.length + g.fileEdges.length := by
  have hlength := hg.perm_ends_fileEdges.length_eq
  rw [List.length_map] at hlength
  rw [← hlength, work]
  generalize g.files = files
  induction files with
  | nil => rfl
  | cons a files ih =>
    rw [List.foldr_cons, ih, List.flatMap_cons, List.length_append, List.length_map,
      List.length_cons]
    omega

end Size

end Graph

end CodeAtlas.Dependency
