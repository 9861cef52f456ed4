import CodeAtlas.Proofs.Dependency.Files
import CodeAtlas.Proofs.Search.Moves
import Mathlib.Data.List.Chain
import Mathlib.Data.List.Permutation

/-! What holds at any time of a search: every file is either unseen, or one that the search is in,
or one that it is done with; the files it is in are a path of imports; what is put off on a file are
the last of its imports. -/

namespace CodeAtlas.Dependency

namespace Search

/-- The files that a search is in, the last one first. -/
def entered (s : Search) : List String := s.stack.map Frame.file

structure Invariant (g : Graph) (s : Search) : Prop where
  partition : (s.unseen ++ (s.entered ++ s.done)).Perm g.files
  pending : ∀ f ∈ s.stack, f.pending <:+ g.successors f.file
  path : s.entered.IsChain fun a b => g.FileImport b a
  height : s.stack.length ≤ max 1 g.maxDepth

variable {g : Graph} {s t : Search} {file next : String} {unseen done pending : List String}
  {rest : List Frame} {rings : List Ring}

theorem perm_cons_filter_ne {l : List String} (h : l.Nodup) (hmem : file ∈ l) :
    (file :: l.filter (· ≠ file)).Perm l := by
  have hnot : file ∉ l.filter (· ≠ file) := by simp
  refine (List.perm_ext_iff_of_nodup (List.nodup_cons.mpr ⟨hnot, h.filter _⟩) h).mpr fun a => ?_
  by_cases ha : a = file
  · simp [ha, hmem]
  · simp [ha]

namespace Invariant

theorem nodup (h : Invariant g s) (hg : g.WellFormed) :
    (s.unseen ++ (s.entered ++ s.done)).Nodup := h.partition.nodup_iff.mpr hg.nodup_files

theorem mem_files_iff (h : Invariant g s) :
    file ∈ g.files ↔ file ∈ s.unseen ∨ file ∈ s.entered ∨ file ∈ s.done := by
  rw [← h.partition.mem_iff, List.mem_append, List.mem_append]

theorem nodup_unseen (h : Invariant g s) (hg : g.WellFormed) : s.unseen.Nodup :=
  (h.nodup hg).of_append_left

theorem nodup_entered (h : Invariant g s) (hg : g.WellFormed) : s.entered.Nodup :=
  (h.nodup hg).of_append_right.of_append_left

theorem not_mem_entered_of_unseen (h : Invariant g s) (hg : g.WellFormed)
    (hu : file ∈ s.unseen) : file ∉ s.entered := fun he =>
  (List.nodup_append.mp (h.nodup hg)).2.2 _ hu _ (List.mem_append_left _ he) rfl

theorem not_mem_done_of_unseen (h : Invariant g s) (hg : g.WellFormed)
    (hu : file ∈ s.unseen) : file ∉ s.done := fun hd =>
  (List.nodup_append.mp (h.nodup hg)).2.2 _ hu _ (List.mem_append_right _ hd) rfl

theorem not_mem_done_of_entered (h : Invariant g s) (hg : g.WellFormed)
    (he : file ∈ s.entered) : file ∉ s.done := fun hd =>
  (List.nodup_append.mp (h.nodup hg).of_append_right).2.2 _ he _ hd rfl

theorem isFile_entered (h : Invariant g s) (hg : g.WellFormed) (he : file ∈ s.entered) :
    g.isFile file = true := hg.mem_files_iff.mp (h.mem_files_iff.mpr (.inr (.inl he)))

theorem fileImport_top (h : Invariant g ⟨unseen, done, ⟨file, next :: pending⟩ :: rest, rings⟩)
    (hg : g.WellFormed) : g.FileImport file next := by
  have hsuffix := h.pending ⟨file, next :: pending⟩ List.mem_cons_self
  exact Graph.fileImport_iff.mpr
    ⟨h.isFile_entered hg List.mem_cons_self, hsuffix.subset List.mem_cons_self⟩

theorem unstarted (g : Graph) : Invariant g g.unstarted where
  partition := by rw [Graph.unstarted, entered, List.map_nil, List.append_nil, List.append_nil]
  pending := fun _ hf => absurd hf List.not_mem_nil
  path := .nil
  height := Nat.zero_le _

theorem enter (h : Invariant g s) (hg : g.WellFormed) (hu : file ∈ s.unseen)
    (hpath : ∀ b ∈ s.entered.head?, g.FileImport b file)
    (hheight : s.stack.length + 1 ≤ max 1 g.maxDepth) : Invariant g (enter g file s) where
  partition := by
    have hperm := perm_cons_filter_ne (h.nodup_unseen hg) hu
    exact List.perm_middle.trans ((hperm.append_right _).trans h.partition)
  pending := fun f hf => by
    rcases List.mem_cons.mp hf with rfl | hf
    · exact List.suffix_refl _
    · exact h.pending f hf
  path := h.path.cons hpath
  height := hheight

theorem advance (h : Invariant g ⟨unseen, done, ⟨file, next :: pending⟩ :: rest, rings⟩)
    (rings' : List Ring) : Invariant g ⟨unseen, done, ⟨file, pending⟩ :: rest, rings'⟩ where
  partition := h.partition
  pending := fun f hf => by
    rcases List.mem_cons.mp hf with rfl | hf
    · exact (List.suffix_cons next pending).trans (h.pending _ List.mem_cons_self)
    · exact h.pending f (List.mem_cons_of_mem _ hf)
  path := h.path
  height := h.height

theorem leave (h : Invariant g ⟨unseen, done, ⟨file, []⟩ :: rest, rings⟩) :
    Invariant g ⟨unseen, file :: done, rest, rings⟩ where
  partition := (List.perm_middle.append_left unseen).trans h.partition
  pending := fun f hf => h.pending f (List.mem_cons_of_mem _ hf)
  path := h.path.tail
  height := (Nat.le_succ _).trans h.height

end Invariant

theorem Move.invariant (hm : Move g s t) (hg : g.WellFormed) (h : Invariant g s) :
    Invariant g t := by
  cases hm with
  | start => exact h.enter hg List.mem_cons_self (fun _ hb => nomatch hb) (Nat.le_max_left _ _)
  | leave => exact h.leave
  | close => exact h.advance _
  | descend hu hlen =>
    refine (h.advance _).enter hg hu (fun b hb => ?_) (hlen.trans_le (Nat.le_max_right _ _))
    obtain rfl := Option.some.inj hb
    exact h.fileImport_top hg
  | skip => exact h.advance _
  | cut => exact h.advance _

end Search

namespace Graph

variable {g : Graph} {s : Search} {P : Search → Prop}

theorem Visits.invariant (h : g.Visits s) (hg : g.WellFormed) : s.Invariant g :=
  visits_induction (.unstarted g) (fun _ hm hs => hm.invariant hg hs) h

/-- What holds before the search and is kept by every move from a state with the invariant holds at
any time. -/
theorem Visits.induction (h : g.Visits s) (hg : g.WellFormed) (h₀ : P g.unstarted)
    (hmove : ∀ {s t}, Search.Move g s t → s.Invariant g → P s → P t) : P s :=
  (visits_induction (P := fun s => s.Invariant g ∧ P s) ⟨.unstarted g, h₀⟩
    (fun _ hm hs => ⟨hm.invariant hg hs.1, hmove hm hs.1 hs.2⟩) h).2

end Graph

end CodeAtlas.Dependency
