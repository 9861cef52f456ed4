import CodeAtlas.Proofs.Dependency.Answers
import CodeAtlas.Proofs.Search.Invariant

/-! When an import is followed. The search puts off every import of a file when it enters the file,
takes each of them up at one time, and never comes back to it. -/

namespace CodeAtlas.Dependency

open Relation

namespace Search

variable {g : Graph} {s t : Search} {file next a b : String} {unseen done pending : List String}
  {rest : List Frame} {rings : List Ring}

/-- Whether an import is the next one that the search takes up. -/
def Follows (s : Search) (a b : String) : Prop :=
  ∃ pending rest, s.stack = ⟨a, b :: pending⟩ :: rest

/-- Whether an import has been taken up: its file has been entered and does not put it off. -/
def Passed (s : Search) (a b : String) : Prop :=
  a ∉ s.unseen ∧ ∀ f ∈ s.stack, f.file = a → b ∉ f.pending

theorem Passed.enter (h : s.Passed a b) (hu : next ∈ s.unseen) : (enter g next s).Passed a b := by
  refine ⟨fun ha => h.1 (List.mem_filter.mp ha).1, fun f hf hfile => ?_⟩
  rcases List.mem_cons.mp hf with rfl | hf
  · exact absurd (hfile ▸ hu) h.1
  · exact h.2 f hf hfile

theorem Passed.advance (h : Passed ⟨unseen, done, ⟨file, next :: pending⟩ :: rest, rings⟩ a b)
    (rings' : List Ring) : Passed ⟨unseen, done, ⟨file, pending⟩ :: rest, rings'⟩ a b := by
  refine ⟨h.1, fun f hf hfile => ?_⟩
  rcases List.mem_cons.mp hf with rfl | hf
  · exact fun hb => h.2 _ List.mem_cons_self hfile (List.mem_cons_of_mem _ hb)
  · exact h.2 f (List.mem_cons_of_mem _ hf) hfile

theorem Passed.move (h : s.Passed a b) (hm : Move g s t) : t.Passed a b := by
  cases hm with
  | start => exact h.enter List.mem_cons_self
  | leave => exact ⟨h.1, fun f hf => h.2 f (List.mem_cons_of_mem _ hf)⟩
  | descend hu hlen => exact (h.advance _).enter hu
  | close | skip | cut => exact h.advance _

theorem Passed.moves (h : s.Passed a b) (hst : ReflTransGen (Move g) s t) : t.Passed a b :=
  moves_induction (P := fun s => s.Passed a b) (fun _ hm hp => Passed.move hp hm) hst h

theorem Passed.not_follows (h : s.Passed a b) : ¬s.Follows a b := by
  rintro ⟨pending, rest, hstack⟩
  exact h.2 ⟨a, b :: pending⟩ (hstack ▸ List.mem_cons_self) rfl List.mem_cons_self

theorem Invariant.passed
    (h : Invariant g ⟨unseen, done, ⟨file, next :: pending⟩ :: rest, rings⟩) (hg : g.WellFormed)
    (rings' : List Ring) : Passed ⟨unseen, done, ⟨file, pending⟩ :: rest, rings'⟩ file next := by
  refine ⟨fun hu => h.not_mem_entered_of_unseen hg hu List.mem_cons_self, fun f hf hfile => ?_⟩
  rcases List.mem_cons.mp hf with rfl | hf
  · have hsorted : (next :: pending).Pairwise (· < ·) :=
      hg.sorted_successors.sublist (h.pending _ List.mem_cons_self).sublist
    exact fun hmem => lt_irrefl next (List.rel_of_pairwise_cons hsorted hmem)
  · -- No file is on the stack twice.
    have hnot := (List.nodup_cons.mp (h.nodup_entered hg)).1
    exact absurd (List.mem_map.mpr ⟨f, hf, hfile⟩) hnot

theorem Follows.passed (h : s.Follows a b) (hm : Move g s t) (hg : g.WellFormed)
    (hinv : s.Invariant g) : t.Passed a b := by
  obtain ⟨pending, rest, hstack⟩ := h
  obtain ⟨unseen, done, stack, rings⟩ := s
  subst hstack
  cases hm with
  | descend hu hlen => exact (hinv.passed hg _).enter hu
  | close | skip | cut => exact hinv.passed hg _

end Search

namespace Graph

variable {g : Graph} {s t : Search} {a b : String}

/-- There is one state of the search in which an import is taken up. -/
theorem follows_unique (hg : g.WellFormed) (hs : g.Visits s) (ht : g.Visits t)
    (h : s.Follows a b) (h' : t.Follows a b) : s = t := by
  have hone {s t : Search} (hs : g.Visits s) (h : s.Follows a b) (h' : t.Follows a b)
      (hst : ReflTransGen (Search.Move g) s t) : s = t := by
    rcases hst.cases_head with heq | ⟨u, hsu, hut⟩
    · exact heq
    · exact absurd h' ((h.passed hsu hg (hs.invariant hg)).moves hut).not_follows
  rcases visits_total hs ht with hst | hts
  · exact hone hs h h' hst
  · exact (hone ht h' h hts).symm

end Graph

end CodeAtlas.Dependency
