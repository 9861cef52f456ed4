import CodeAtlas.Proofs.Search.Invariant

/-! When a file is entered. For every file that a search is in there was a time when it had just
been entered: the files below it are the same ones since then, and those above it were unseen. No
file is entered twice. -/

namespace CodeAtlas.Dependency

open Relation

namespace Search

variable {g : Graph} {s t : Search} {file next : String} {unseen done pending : List String}
  {rest : List Frame} {rings : List Ring}

/-- Whether a file has just been entered: it is on top and no import of it has been followed. -/
def Entering (g : Graph) (s : Search) (file : String) : Prop :=
  s.stack.head? = some ⟨file, g.successors file⟩

/-- Whether every file that the search is in has been entered at some time. -/
def Traced (g : Graph) (t : Search) : Prop := ∀ upper f lower, t.stack = upper ++ f :: lower →
  ∃ s, g.Visits s ∧ s.stack = ⟨f.file, g.successors f.file⟩ :: lower ∧ t.unseen ⊆ s.unseen ∧
    upper.map Frame.file ⊆ s.unseen

theorem Traced.advance (h : Traced g ⟨unseen, done, ⟨file, next :: pending⟩ :: rest, rings⟩)
    (rings' : List Ring) : Traced g ⟨unseen, done, ⟨file, pending⟩ :: rest, rings'⟩ := by
  intro upper f lower hsplit
  cases upper with
  | nil =>
    obtain ⟨rfl, rfl⟩ := List.cons.inj hsplit
    exact h [] ⟨file, next :: pending⟩ rest rfl
  | cons u upper =>
    obtain ⟨rfl, rfl⟩ := List.cons.inj hsplit
    exact h (⟨file, next :: pending⟩ :: upper) f lower rfl

theorem Traced.enter (h : Traced g s) (hu : file ∈ s.unseen)
    (hvisits : g.Visits (enter g file s)) : Traced g (enter g file s) := by
  intro upper f lower hsplit
  cases upper with
  | nil =>
    obtain ⟨rfl, rfl⟩ := List.cons.inj hsplit
    exact ⟨_, hvisits, rfl, fun _ => id, List.nil_subset _⟩
  | cons u upper =>
    obtain ⟨rfl, hstack⟩ := List.cons.inj hsplit
    obtain ⟨s', hs', hstack', hunseen, hupper⟩ := h upper f lower hstack
    refine ⟨s', hs', hstack', fun a ha => hunseen (List.mem_filter.mp ha).1, ?_⟩
    exact List.cons_subset.mpr ⟨hunseen hu, hupper⟩

theorem Move.traced (hs : ReflTransGen (Move g) g.unstarted s) (hm : Move g s t)
    (h : Traced g s) : Traced g t := by
  have hvisits (ht : t.stack ≠ []) : g.Visits t := Graph.visits_of_moves (hs.tail hm) ht
  cases hm with
  | start => exact h.enter List.mem_cons_self (hvisits (List.cons_ne_nil _ _))
  | @leave file unseen done rest rings =>
    intro upper f lower hsplit
    obtain ⟨s', hs', hstack, hunseen, hupper⟩ := h (⟨file, []⟩ :: upper) f lower
      (congrArg (List.cons _) hsplit)
    exact ⟨s', hs', hstack, hunseen, (List.cons_subset.mp hupper).2⟩
  | descend hu hlen => exact (h.advance _).enter hu (hvisits (List.cons_ne_nil _ _))
  | close | skip | cut => exact h.advance _

theorem Move.unseen_eq_or (hm : Move g s t) : t.unseen = s.unseen ∨
    ∃ file ∈ s.unseen, t.unseen = s.unseen.filter (· ≠ file) ∧ t.Entering g file := by
  cases hm with
  | start => exact .inr ⟨_, List.mem_cons_self, rfl, rfl⟩
  | descend hu hlen => exact .inr ⟨_, hu, rfl, rfl⟩
  | leave | close | skip | cut => exact .inl rfl

/-- A file stays unseen until it is entered. -/
theorem Move.unseen_or_entering (hm : Move g s t) (hu : file ∈ s.unseen) :
    file ∈ t.unseen ∨ t.Entering g file := by
  rcases hm.unseen_eq_or with heq | ⟨next, -, heq, hentering⟩
  · exact .inl (heq ▸ hu)
  · by_cases hnext : file = next
    · exact .inr (hnext ▸ hentering)
    · rw [heq]
      exact .inl (List.mem_filter.mpr ⟨hu, decide_eq_true hnext⟩)

theorem unseen_subset_of_moves (h : ReflTransGen (Move g) s t) : t.unseen ⊆ s.unseen := by
  induction h with
  | refl => exact fun _ => id
  | tail _ hm ih =>
    intro file hfile
    rcases hm.unseen_eq_or with heq | ⟨_, _, heq, -⟩
    · exact ih (heq ▸ hfile)
    · rw [heq] at hfile
      exact ih (List.mem_filter.mp hfile).1

theorem Entering.stack_ne_nil (h : s.Entering g file) : s.stack ≠ [] :=
  List.ne_nil_of_mem (List.mem_of_mem_head? h)

theorem Entering.mem_entered (h : s.Entering g file) : file ∈ s.entered :=
  List.mem_map_of_mem (List.mem_of_mem_head? h)

/-- Whether a file was entered some time ago: an import of it has been followed, or it was left. -/
def Begun (g : Graph) (s : Search) (file : String) : Prop :=
  file ∉ s.unseen ∧ ⟨file, g.successors file⟩ ∉ s.stack

theorem Begun.enter (h : s.Begun g file) (hu : next ∈ s.unseen) :
    (enter g next s).Begun g file := by
  refine ⟨fun hfile => h.1 (List.mem_filter.mp hfile).1, fun hmem => ?_⟩
  rcases List.mem_cons.mp hmem with heq | hmem
  · exact h.1 ((Frame.mk.inj heq).1 ▸ hu)
  · exact h.2 hmem

theorem Begun.advance {top : String} {rings' : List Ring}
    (hinv : Invariant g ⟨unseen, done, ⟨top, next :: pending⟩ :: rest, rings⟩)
    (hu : file ∉ unseen) (hrest : ⟨file, g.successors file⟩ ∉ rest) :
    Begun g ⟨unseen, done, ⟨top, pending⟩ :: rest, rings'⟩ file := by
  refine ⟨hu, fun hmem => ?_⟩
  rcases List.mem_cons.mp hmem with heq | hmem
  · obtain ⟨rfl, rfl⟩ := Frame.mk.inj heq
    have hlength := (hinv.pending _ List.mem_cons_self).length_le
    exact Nat.not_succ_le_self _ hlength
  · exact hrest hmem

theorem Begun.move (h : s.Begun g file) (hm : Move g s t) (hinv : s.Invariant g) :
    t.Begun g file := by
  cases hm with
  | start => exact h.enter List.mem_cons_self
  | leave => exact ⟨h.1, fun hmem => h.2 (List.mem_cons_of_mem _ hmem)⟩
  | descend hu hlen =>
    exact (Begun.advance hinv h.1 fun hmem => h.2 (List.mem_cons_of_mem _ hmem)).enter hu
  | close | skip | cut =>
    exact Begun.advance hinv h.1 fun hmem => h.2 (List.mem_cons_of_mem _ hmem)

theorem Entering.begun (h : s.Entering g file) (hm : Move g s t) (hg : g.WellFormed)
    (hinv : s.Invariant g) : t.Begun g file := by
  have hu : file ∉ s.unseen := fun hu => hinv.not_mem_entered_of_unseen hg hu h.mem_entered
  have hrest : ⟨file, g.successors file⟩ ∉ s.stack.tail := by
    obtain ⟨rest, hstack⟩ := List.head?_eq_some_iff.mp h
    have hnodup := hinv.nodup_entered hg
    rw [entered, hstack, List.map_cons] at hnodup
    rw [hstack]
    exact fun hmem => (List.nodup_cons.mp hnodup).1 (List.mem_map_of_mem hmem)
  cases hm with
  | start => exact absurd h.mem_entered List.not_mem_nil
  | leave => exact ⟨hu, hrest⟩
  | descend hu' hlen => exact (Begun.advance hinv hu hrest).enter hu'
  | close | skip | cut => exact Begun.advance hinv hu hrest

theorem Entering.eq_of_moves (h : s.Entering g file) (h' : t.Entering g file)
    (hst : ReflTransGen (Move g) s t) (hg : g.WellFormed) (hinv : s.Invariant g) : s = t := by
  rcases hst.cases_head with heq | ⟨u, hsu, hut⟩
  · exact heq
  · have hbegun : t.Invariant g ∧ t.Begun g file :=
      moves_induction (P := fun v => v.Invariant g ∧ v.Begun g file)
        (fun _ hm hv => ⟨hm.invariant hg hv.1, hv.2.move hm hv.1⟩) hut
        ⟨hsu.invariant hg hinv, h.begun hsu hg hinv⟩
    exact absurd (List.mem_of_mem_head? h') hbegun.2.2

end Search

namespace Graph

variable {g : Graph} {s : Search} {file : String} {upper lower : List Frame} {f : Frame}

theorem Visits.traced (h : g.Visits s) : s.Traced g :=
  visits_induction (fun upper _ _ hsplit => by simp [unstarted] at hsplit)
    (fun hs hm hp => hm.traced hs hp) h

theorem Visits.exists_entering {t : Search} (h : g.Visits t)
    (hsplit : t.stack = upper ++ f :: lower) :
    ∃ s, g.Visits s ∧ s.Entering g f.file ∧ s.entered = f.file :: lower.map Frame.file ∧
      upper.map Frame.file ⊆ s.unseen := by
  obtain ⟨s, hs, hstack, -, hupper⟩ := h.traced upper f lower hsplit
  refine ⟨s, hs, ?_, ?_, hupper⟩
  · rw [Search.Entering, hstack, List.head?_cons]
  · rw [Search.entered, hstack, List.map_cons]

theorem entering_unique {t : Search} (hg : g.WellFormed) (hs : g.Visits s) (ht : g.Visits t)
    (h : s.Entering g file) (h' : t.Entering g file) : s = t := by
  rcases visits_total hs ht with hst | hts
  · exact h.eq_of_moves h' hst hg (hs.invariant hg)
  · exact (h'.eq_of_moves h hts hg (ht.invariant hg)).symm

end Graph

end CodeAtlas.Dependency
