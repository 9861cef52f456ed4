import CodeAtlas.Proofs.Rings.Loops
import CodeAtlas.Proofs.Search.End

/-! Imports that promise a ring. While the search is in a file, some import that is put off there or
above may be known to lead to a ring in the end: either following it closes one, or it leads to an
unseen file, and then an import of that file promises one. As the search leaves no file before it
has followed all imports of it, the promise is kept. -/

namespace CodeAtlas.Dependency

namespace Search

variable {g : Graph} {s t : Search} {file next : String} {unseen done pending : List String}
  {rest lower : List Frame} {rings : List Ring} {C : List String → String → String → Prop}
  {found : Ring → Prop}

/-- Whether the search is in a file, above some others, and an import put off there or further up
promises a ring. What a promise is depends on the files not seen yet. -/
def Promised (C : List String → String → String → Prop) (file : String) (rest : List Frame)
    (s : Search) : Prop :=
  ∃ above, s.stack = above ++ rest ∧ (above.map Frame.file).getLast? = some file ∧
    ∃ f ∈ above, ∃ next ∈ f.pending, C s.unseen f.file next

/-- What makes promises hold: entering a file keeps them or hands them on to an import of that file,
an unseen file that one leads to is not too far down, and one to any other file closes a ring. -/
structure Promising (g : Graph) (C : List String → String → String → Prop) (file : String)
    (rest : List Frame) (found : Ring → Prop) : Prop where
  enter : ∀ {unseen : List String} {a b next : String}, next ∈ unseen → C unseen a b →
    (C (unseen.filter (· ≠ next)) a b ∧ b ≠ next) ∨
      ∃ c ∈ g.successors next, C (unseen.filter (· ≠ next)) next c
  descend : ∀ {s : Search} {f : Frame} {next : String} {above : List Frame}, s.Invariant g →
    s.stack = f :: above ++ rest →
    ((f :: above).map Frame.file).getLast? = some file → C s.unseen f.file next →
    next ∈ s.unseen → s.stack.length < g.maxDepth
  close : ∀ {s : Search} {f : Frame} {next : String} {above : List Frame}, s.Invariant g →
    s.stack = f :: above ++ rest →
    ((f :: above).map Frame.file).getLast? = some file → C s.unseen f.file next →
    next ∉ s.unseen → next ∈ s.entered ∧ found (s.ringTo next)

theorem Promised.stack_ne_nil (h : Promised C file rest s) : s.stack ≠ [] := by
  obtain ⟨above, hstack, hlast, -⟩ := h
  rw [hstack]
  refine List.append_ne_nil_of_left_ne_nil (fun hnil => ?_) _
  rw [hnil] at hlast
  exact nomatch hlast

theorem Promised.leave (h : Promised C file rest ⟨unseen, done, ⟨next, []⟩ :: lower, rings⟩) :
    Promised C file rest ⟨unseen, next :: done, lower, rings⟩ := by
  obtain ⟨above, hstack, hlast, f, hf, n, hn, hC⟩ := h
  match above with
  | [] => exact nomatch hlast
  | top :: above =>
    obtain ⟨rfl, rfl⟩ := List.cons.inj hstack
    rcases List.mem_cons.mp hf with rfl | hf
    · exact absurd hn List.not_mem_nil
    · refine ⟨above, rfl, ?_, f, hf, n, hn, hC⟩
      rw [← hlast, List.map_cons, List.getLast?_cons_of_ne_nil]
      exact List.ne_nil_of_mem (List.mem_map_of_mem hf)

theorem Promised.advance {top : String}
    (h : Promised C file rest ⟨unseen, done, ⟨top, next :: pending⟩ :: lower, rings⟩) :
    ∃ above, lower = above ++ rest ∧
      ((⟨top, pending⟩ :: above).map Frame.file).getLast? = some file ∧
      (C unseen top next ∨ ∃ f ∈ ⟨top, pending⟩ :: above, ∃ n ∈ f.pending, C unseen f.file n) := by
  obtain ⟨above, hstack, hlast, f, hf, n, hn, hC⟩ := h
  match above with
  | [] => exact nomatch hlast
  | f₀ :: above =>
    obtain ⟨rfl, rfl⟩ := List.cons.inj hstack
    refine ⟨above, rfl, hlast, ?_⟩
    rcases List.mem_cons.mp hf with rfl | hf
    · rcases List.mem_cons.mp hn with rfl | hn
      · exact .inl hC
      · exact .inr ⟨_, List.mem_cons_self, n, hn, hC⟩
    · exact .inr ⟨f, List.mem_cons_of_mem _ hf, n, hn, hC⟩

theorem promised_enter (h : Promising g C file rest found) {above : List Frame}
    {top : Frame} (hlast : ((top :: above).map Frame.file).getLast? = some file)
    (hu : next ∈ unseen)
    (hC : C unseen top.file next ∨ ∃ f ∈ top :: above, ∃ n ∈ f.pending, C unseen f.file n) :
    Promised C file rest (enter g next ⟨unseen, done, top :: (above ++ rest), rings⟩) := by
  suffices hnew : (∃ c ∈ g.successors next, C (unseen.filter (· ≠ next)) next c) ∨
      ∃ f ∈ top :: above, ∃ n ∈ f.pending, C (unseen.filter (· ≠ next)) f.file n by
    refine ⟨⟨next, g.successors next⟩ :: top :: above, rfl, hlast, ?_⟩
    rcases hnew with ⟨c, hc, hC⟩ | ⟨f, hf, n, hn, hC⟩
    · exact ⟨_, List.mem_cons_self, c, hc, hC⟩
    · exact ⟨f, List.mem_cons_of_mem _ hf, n, hn, hC⟩
  rcases hC with hC | ⟨f, hf, n, hn, hC⟩
  · -- The promise is the import just followed, so it is handed on.
    exact .inl ((h.enter hu hC).resolve_left fun hkeep => hkeep.2 rfl)
  · rcases h.enter hu hC with ⟨hkeep, -⟩ | hnew
    · exact .inr ⟨f, hf, n, hn, hkeep⟩
    · exact .inl hnew

theorem Promised.move (hs : Promised C file rest s) (h : Promising g C file rest found)
    (hg : g.WellFormed) (hm : Move g s t) (hinv : s.Invariant g) :
    Promised C file rest t ∨ ∃ r ∈ t.rings, found r := by
  cases hm with
  | start => exact absurd rfl hs.stack_ne_nil
  | leave => exact .inl hs.leave
  | close hu hd =>
    obtain ⟨above, rfl, hlast, hC | hC⟩ := hs.advance
    · have hfound := (h.close hinv rfl hlast hC hu).2
      exact .inr ⟨_, List.mem_cons_self, ringTo_congr (t := ⟨_, _, _, _⟩) rfl ▸ hfound⟩
    · exact .inl ⟨_, rfl, hlast, hC⟩
  | descend hu hlen =>
    obtain ⟨above, rfl, hlast, hC⟩ := hs.advance
    exact .inl (promised_enter h hlast hu hC)
  | skip hu hd =>
    obtain ⟨above, rfl, hlast, hC | hC⟩ := hs.advance
    · exact absurd hd (hinv.not_mem_done_of_entered hg (h.close hinv rfl hlast hC hu).1)
    · exact .inl ⟨_, rfl, hlast, hC⟩
  | cut hu hlen =>
    obtain ⟨above, rfl, hlast, hC | hC⟩ := hs.advance
    · exact absurd (h.descend hinv rfl hlast hC hu) (Nat.not_lt.mpr hlen)
    · exact .inl ⟨_, rfl, hlast, hC⟩

theorem Move.rings_subset (hm : Move g s t) : s.rings ⊆ t.rings := by
  cases hm with
  | close => exact List.subset_cons_self _ _
  | start | leave | descend | skip | cut => exact fun _ => id

end Search

/-- A promise is kept: the ring is found in the end. -/
theorem Graph.Visits.exists_mem_cycles {g : Graph} {s : Search} {file : String} {rest : List Frame}
    {C : List String → String → String → Prop} {found : Ring → Prop} (h : g.Visits s)
    (hg : g.WellFormed) (hC : s.Promised C file rest)
    (hpromising : Search.Promising g C file rest found) : ∃ r ∈ g.cycles, found r := by
  have hend : g.finish.Promised C file rest ∨ ∃ r ∈ g.finish.rings, found r := by
    refine h.finish_induction (P := fun t => t.Promised C file rest ∨ ∃ r ∈ t.rings, found r) hg
      (.inl hC) fun hm hinv hs => ?_
    rcases hs with hs | ⟨r, hr, hfound⟩
    · exact hs.move hpromising hg hm hinv
    · exact .inr ⟨r, hm.rings_subset hr, hfound⟩
  obtain ⟨r, hr, hfound⟩ := hend.resolve_left fun hs => hs.stack_ne_nil (finish_stack hg)
  exact ⟨r, mem_cycles.mpr hr, hfound⟩

end CodeAtlas.Dependency
