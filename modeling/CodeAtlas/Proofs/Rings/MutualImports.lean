import CodeAtlas.Proofs.Rings.Completeness
import CodeAtlas.Proofs.Rings.Promises
import CodeAtlas.Proofs.Search.Entering

/-! Two files that import each other. One of them is entered first, and whether they are found on a
ring together depends on nothing but how far down that is. The other one is looked at from there: if
it is too far down it is passed over, and it is not entered before the search has left the first. -/

namespace CodeAtlas.Dependency

namespace Search

variable {g : Graph} {s t : Search} {a b : String} {rest : List Frame}

/-- Whether a file has just been entered before another one. -/
def EntersBefore (g : Graph) (s : Search) (a b : String) : Prop := s.Entering g a ∧ b ∈ s.unseen

/-- Whether one of two files has just been entered and the other one has not been seen. -/
def EntersFirst (g : Graph) (s : Search) (a b : String) : Prop :=
  s.EntersBefore g a b ∨ s.EntersBefore g b a

/-- While the search is in a file, an import of an unseen file that imports it back promises a ring
with both, if the first one is not too far down. -/
theorem promising_back (hg : g.WellFormed) (hba : g.FileImport b a)
    (hroom : rest.length + 1 < g.maxDepth) :
    Promising g (fun unseen file next =>
      a ∉ unseen ∧ (file = a ∧ next = b ∧ b ∈ unseen ∨ file = b ∧ next = a)) a rest
      (fun r => a ∈ r.stops ∧ b ∈ r.stops) where
  enter := by
    rintro unseen file next c hu ⟨ha, hC⟩
    have ha' : a ∉ unseen.filter (· ≠ c) := fun h => ha (List.mem_filter.mp h).1
    rcases hC with ⟨rfl, rfl, hb⟩ | ⟨rfl, rfl⟩
    · by_cases heq : next = c
      · subst heq
        exact .inr ⟨file, (Graph.fileImport_iff.mp hba).2, ha', .inr ⟨rfl, rfl⟩⟩
      · exact .inl ⟨⟨ha', .inl ⟨rfl, rfl, List.mem_filter.mpr ⟨hb, by simpa using heq⟩⟩⟩, heq⟩
    · exact .inl ⟨⟨ha', .inr ⟨rfl, rfl⟩⟩, (ne_of_mem_of_not_mem hu ha).symm⟩
  descend := by
    rintro s f next above hinv hstack hlast ⟨ha, hC⟩ hu
    rcases hC with ⟨rfl, rfl, hb⟩ | ⟨rfl, rfl⟩
    · -- No file is on the stack twice, so nothing is above the first one.
      have hnodup := hinv.nodup_entered hg
      rw [entered, hstack, List.cons_append, List.map_cons] at hnodup
      cases above with
      | nil =>
        rw [hstack]
        exact hroom
      | cons f' above =>
        refine absurd ?_ (List.nodup_cons.mp hnodup).1
        rw [List.map_append]
        refine List.mem_append_left _ (List.mem_of_getLast? ?_)
        rwa [List.map_cons, List.map_cons, List.getLast?_cons_cons] at hlast
    · exact absurd hu ha
  close := by
    rintro s f next above hinv hstack hlast ⟨ha, hC⟩ hu
    have hmem : a ∈ s.entered := by
      rw [entered, hstack, List.map_append]
      exact List.mem_append_left _ (List.mem_of_getLast? hlast)
    rcases hC with ⟨rfl, rfl, hb⟩ | ⟨rfl, rfl⟩
    · exact absurd hb hu
    · have htop : s.entered.head? = some f.file := by
        rw [entered, hstack]
        rfl
      have hsuffix := suffix_ringTo_stops (hinv.nodup_entered hg) hmem htop
      exact ⟨hmem, hsuffix.subset (List.mem_cons_of_mem _ List.mem_cons_self),
        hsuffix.subset List.mem_cons_self⟩

end Search

namespace Graph

open Search

variable {g : Graph} {s t : Search} {a b : String}

theorem exists_ring_of_entersBefore (hg : g.WellFormed) (hs : g.Visits s)
    (h : s.EntersBefore g a b) (hab : g.FileImport a b) (hba : g.FileImport b a)
    (hroom : s.stack.length < g.maxDepth) : ∃ r ∈ g.cycles, a ∈ r.stops ∧ b ∈ r.stops := by
  have hinv := hs.invariant hg
  obtain ⟨rest, hstack⟩ := List.head?_eq_some_iff.mp h.1
  have hfirst : a ∉ s.unseen := fun hu => hinv.not_mem_entered_of_unseen hg hu h.1.mem_entered
  rw [hstack] at hroom
  refine hs.exists_mem_cycles hg ?_ (promising_back hg hba hroom)
  exact ⟨[⟨a, g.successors a⟩], hstack, rfl, _, List.mem_cons_self, b, (fileImport_iff.mp hab).2,
    hfirst, .inl ⟨rfl, rfl, h.2⟩⟩

/-- Of two files that the search is in, the lower one was entered when the other one was unseen, and
there was room above it. -/
theorem exists_entersBefore (hg : g.WellFormed) (ht : g.Visits t) {upper lower : List Frame}
    {f : Frame} (hsplit : t.stack = upper ++ f :: lower) (hb : b ∈ upper.map Frame.file) :
    ∃ s, g.Visits s ∧ s.EntersBefore g f.file b ∧ s.stack.length < g.maxDepth := by
  obtain ⟨s, hs, hentering, hentered, hupper⟩ := ht.exists_entering hsplit
  refine ⟨s, hs, ⟨hentering, hupper hb⟩, ?_⟩
  have hheight := (ht.invariant hg).height
  have hpos : 0 < upper.length := by
    rw [← List.length_map (f := Frame.file)]
    exact List.length_pos_of_mem hb
  have hlength : s.stack.length = lower.length + 1 := by
    rw [← List.length_map (f := Frame.file), ← Search.entered, hentered, List.length_cons,
      List.length_map]
  rw [hsplit, List.length_append, List.length_cons] at hheight
  omega

theorem exists_entersFirst_of_entered (hg : g.WellFormed) (ht : g.Visits t) (hne : a ≠ b)
    (ha : a ∈ t.entered) (hb : b ∈ t.entered) :
    ∃ s, g.Visits s ∧ s.EntersFirst g a b ∧ s.stack.length < g.maxDepth := by
  obtain ⟨f, hf, rfl⟩ := List.mem_map.mp ha
  obtain ⟨upper, lower, hsplit⟩ := List.append_of_mem hf
  rw [Search.entered, hsplit, List.map_append, List.map_cons] at hb
  rcases List.mem_append.mp hb with hb | hb
  · obtain ⟨s, hs, hbefore, hroom⟩ := exists_entersBefore hg ht hsplit hb
    exact ⟨s, hs, .inl hbefore, hroom⟩
  · obtain ⟨f', hf', rfl⟩ := List.mem_map.mp ((List.mem_cons.mp hb).resolve_left hne.symm)
    obtain ⟨middle, lower, rfl⟩ := List.append_of_mem hf'
    rw [← List.cons_append, ← List.append_assoc] at hsplit
    have ha' : f.file ∈ (upper ++ f :: middle).map Frame.file :=
      List.mem_map_of_mem (List.mem_append_right _ List.mem_cons_self)
    obtain ⟨s, hs, hbefore, hroom⟩ := exists_entersBefore hg ht hsplit ha'
    exact ⟨s, hs, .inr hbefore, hroom⟩

theorem exists_entersFirst (hg : g.WellFormed) (hne : a ≠ b) (ha : g.isFile a = true)
    (hb : g.isFile b = true) : ∃ s, g.Visits s ∧ s.EntersFirst g a b := by
  -- Until then both are unseen, and in the end no file is.
  refine exists_visits (P := fun t => a ∈ t.unseen ∧ b ∈ t.unseen)
    ⟨hg.mem_files_iff.mpr ha, hg.mem_files_iff.mpr hb⟩ (fun {s t} hs hm h => ?_) ?_
  · have hvisits {c : String} (h : t.Entering g c) : g.Visits t :=
      visits_of_moves (hs.tail hm) h.stack_ne_nil
    rcases hm.unseen_or_entering h.1 with hau | hentera
    · rcases hm.unseen_or_entering h.2 with hbu | henterb
      · exact .inl ⟨hau, hbu⟩
      · exact .inr ⟨t, hvisits henterb, .inr ⟨henterb, hau⟩⟩
    · rcases hm.unseen_or_entering h.2 with hbu | henterb
      · exact .inr ⟨t, hvisits hentera, .inl ⟨hentera, hbu⟩⟩
      · have htop := Option.some.inj (hentera.symm.trans henterb)
        exact absurd (Frame.mk.inj htop).1 hne
  · rw [finish_unseen hg]
    exact fun h => List.not_mem_nil h.1

theorem not_entersBefore_of_moves (hg : g.WellFormed) (hs : g.Visits s)
    (h : s.EntersBefore g a b) (hst : Relation.ReflTransGen (Move g) s t) :
    ¬t.EntersBefore g b a := fun h' =>
  (hs.invariant hg).not_mem_entered_of_unseen hg (unseen_subset_of_moves hst h'.2)
    h.1.mem_entered

theorem not_entersBefore (hg : g.WellFormed) (hs : g.Visits s) (ht : g.Visits t)
    (h : s.EntersBefore g a b) : ¬t.EntersBefore g b a := by
  rcases visits_total hs ht with hst | hts
  · exact not_entersBefore_of_moves hg hs h hst
  · exact fun h' => not_entersBefore_of_moves hg ht h' hts h

theorem entersFirst_unique (hg : g.WellFormed) (hs : g.Visits s) (ht : g.Visits t)
    (h : s.EntersFirst g a b) (h' : t.EntersFirst g a b) : s = t := by
  rcases h with h | h <;> rcases h' with h' | h'
  · exact entering_unique hg hs ht h.1 h'.1
  · exact absurd h' (not_entersBefore hg hs ht h)
  · exact absurd h' (not_entersBefore hg hs ht h)
  · exact entering_unique hg hs ht h.1 h'.1

/-- Of two files that import each other one is entered first, and they are on a ring together
exactly if it is then above the greatest depth, as it is where no file can be too far down. -/
theorem mutual_imports_ring_iff_room (maxDepth : Nat) (edits : List Edit) (a b : String)
    (hne : a ≠ b) (hab : (ofEdits maxDepth edits).FileImport a b)
    (hba : (ofEdits maxDepth edits).FileImport b a) :
    let g := ofEdits maxDepth edits
    (∃ s, g.Visits s ∧ s.EntersFirst g a b) ∧
    (∀ s, g.Visits s → s.EntersFirst g a b →
      ((∃ r ∈ g.cycles, a ∈ r.stops ∧ b ∈ r.stops) ↔ s.stack.length < maxDepth)) ∧
    (g.files.length ≤ maxDepth → ∃ r ∈ g.cycles, a ∈ r.stops ∧ b ∈ r.stops) := by
  intro g
  have hg : g.WellFormed := wellFormed_ofEdits maxDepth edits
  have hmax : g.maxDepth = maxDepth := maxDepth_ofEdits maxDepth edits
  have hring (s : Search) (hs : g.Visits s) (hfirst : s.EntersFirst g a b)
      (hroom : s.stack.length < maxDepth) : ∃ r ∈ g.cycles, a ∈ r.stops ∧ b ∈ r.stops := by
    rw [← hmax] at hroom
    rcases hfirst with h | h
    · exact exists_ring_of_entersBefore hg hs h hab hba hroom
    · obtain ⟨r, hr, hb, ha⟩ := exists_ring_of_entersBefore hg hs h hba hab hroom
      exact ⟨r, hr, ha, hb⟩
  have hexists := exists_entersFirst hg hne hab.1 hab.2.1
  refine ⟨hexists, fun s hs hfirst => ⟨?_, hring s hs hfirst⟩, fun hdepth => ?_⟩
  · rintro ⟨r, hr, ha, hb⟩
    obtain ⟨t, ht, hcloses⟩ := exists_closes_of_mem_cycles hg hr
    have hstops := hcloses.stops_subset (ht.invariant hg) hg
    obtain ⟨s', hs', hfirst', hroom⟩ :=
      exists_entersFirst_of_entered hg ht hne (hstops ha) (hstops hb)
    rw [entersFirst_unique hg hs hs' hfirst hfirst', ← hmax]
    exact hroom
  · obtain ⟨s, hs, hfirst⟩ := hexists
    refine hring s hs hfirst ?_
    have hu : ∃ next, next ∈ s.unseen := hfirst.elim (fun h => ⟨b, h.2⟩) fun h => ⟨a, h.2⟩
    obtain ⟨next, hnext⟩ := hu
    exact hmax ▸ (hs.invariant hg).height_lt (hmax.symm ▸ hdepth) hnext

/-- A file that imports one of two files that import each other. -/
def lead : List Edit :=
  [.file "a" [] [], .file "b" [] [], .file "c" [] [], .statement "a" "b", .statement "b" "c",
    .statement "c" "b"]

theorem mutual_imports_ring_iff_room_lead :
    (ofEdits 3 lead).FileImport "b" "c" ∧ (ofEdits 3 lead).FileImport "c" "b" ∧
      ∃ r ∈ (ofEdits 3 lead).cycles, "b" ∈ r.stops ∧ "c" ∈ r.stops := by
  have hbc : (ofEdits 3 lead).FileImport "b" "c" := by decide
  have hcb : (ofEdits 3 lead).FileImport "c" "b" := by decide
  have hdepth : (ofEdits 3 lead).files.length ≤ 3 := by cbv
  exact ⟨hbc, hcb, (mutual_imports_ring_iff_room 3 lead "b" "c" (by decide) hbc hcb).2.2 hdepth⟩

/-- Behind a file that imports one of them, two files that import each other are missed. -/
theorem not_forall_mutual_imports_ring :
    ¬∀ maxDepth edits, 2 ≤ maxDepth → ∀ a b, a ≠ b → (ofEdits maxDepth edits).FileImport a b →
      (ofEdits maxDepth edits).FileImport b a →
        ∃ r ∈ (ofEdits maxDepth edits).cycles, a ∈ r.stops ∧ b ∈ r.stops := by
  intro h
  have hcycles : (ofEdits 2 lead).cycles = [] := by cbv
  obtain ⟨r, hr, -⟩ := h 2 lead (by decide) "b" "c" (by decide) (by decide) (by decide)
  rw [hcycles] at hr
  exact absurd hr List.not_mem_nil

end Graph

end CodeAtlas.Dependency
